import Onprest.Sql.Syntax

/-! Binding the named parameters of a SQL text. The scan that finds the parameters and the scan that replaces them
are two loops of the source; both read the text in the same pieces. -/

namespace Onprest.Sql

/-- `%d` of a number. -/
def decimal (n : ℕ) : Text := ascii (toString n)

/-- The placeholder of the argument at a place, counted from one. -/
def placeholder (driver : Driver) (idx : ℕ) : Text :=
  match driver with
  | .postgres => '$'.toUInt8 :: decimal idx
  | .sqlserver => '@'.toUInt8 :: 'p'.toUInt8 :: decimal idx
  | .oracle => ':'.toUInt8 :: decimal idx
  | .mysql | .other => ['?'.toUInt8]

inductive BindError
  | sqlIsEmpty
  | missingSQLParam (name : Text)
deriving DecidableEq

/-- The text of an error. -/
def BindError.message : BindError → Text
  | .sqlIsEmpty => ascii "sql is empty"
  | .missingSQLParam name => ascii "missing sql param: " ++ name

section Build

variable {V : Type} (driver : Driver) (params : Text → Option V)

/-- `validateSQLShape`. -/
def validateSQLShape (query : Text) : Except BindError Unit :=
  if query = [] then .error .sqlIsEmpty else .ok ()

/-- The loop of `buildSQL`: the text and the arguments it still adds, `i` arguments being there already. -/
def buildFrom (i : ℕ) (before rest : Text) : Except BindError (Text × List V) :=
  match rest with
  | [] => .ok ([], [])
  | c :: cs =>
    match protectedRegion driver before c cs with
    | some n => do
      let (out, args) ← buildFrom i (pass n (c :: before) cs) (cs.drop n)
      return (c :: cs.take n ++ out, args)
    | none =>
      if c = ':'.toUInt8 then
        if cs.head? = some ':'.toUInt8 then do
          let (out, args) ← buildFrom i (pass 1 (c :: before) cs) cs.tail
          return (ascii "::" ++ out, args)
        else
          let name := parameterName cs
          if 0 < name.length then
            match params name with
            | none => .error (.missingSQLParam name)
            | some v => do
              let (out, args) ← buildFrom (i + 1) (pass name.length (c :: before) cs) (cs.drop name.length)
              return (placeholder driver (i + 1) ++ out, v :: args)
          else do
            let (out, args) ← buildFrom i (c :: before) cs
            return (c :: out, args)
      else do
        let (out, args) ← buildFrom i (c :: before) cs
        return (c :: out, args)
termination_by rest.length
decreasing_by all_goals simp only [List.length_drop, List.length_tail, List.length_cons]; omega

def buildSQL (query : Text) : Except BindError (Text × List V) := do
  validateSQLShape query
  buildFrom driver params 0 [] query

end Build

/-! ### Pieces -/

/-- A text in pieces: bytes that are copied, and named parameters. -/
inductive Piece
  | text (bytes : Text)
  | named (name : Text)

namespace Piece

/-- The bytes of the query that a piece stands for. -/
def source : Piece → Text
  | text bytes => bytes
  | named name => ':'.toUInt8 :: name

def name? : Piece → Option Text
  | text _ => none
  | named name => some name

end Piece

/-- The pieces of a text, from a place in it: a protected region, a doubled colon and any other byte are copied. -/
def piecesFrom (driver : Driver) (before rest : Text) : List Piece :=
  match rest with
  | [] => []
  | c :: cs =>
    match protectedRegion driver before c cs with
    | some n => .text (c :: cs.take n) :: piecesFrom driver (pass n (c :: before) cs) (cs.drop n)
    | none =>
      if c = ':'.toUInt8 then
        if cs.head? = some ':'.toUInt8 then
          .text (ascii "::") :: piecesFrom driver (pass 1 (c :: before) cs) cs.tail
        else if 0 < (parameterName cs).length then
          .named (parameterName cs) ::
            piecesFrom driver (pass (parameterName cs).length (c :: before) cs) (cs.drop (parameterName cs).length)
        else .text [c] :: piecesFrom driver (c :: before) cs
      else .text [c] :: piecesFrom driver (c :: before) cs
termination_by rest.length
decreasing_by all_goals simp only [List.length_drop, List.length_tail, List.length_cons]; omega

def pieces (driver : Driver) (query : Text) : List Piece := piecesFrom driver [] query

/-- The pieces with their names replaced by placeholders, `i` arguments being there already. -/
def fill (driver : Driver) (i : ℕ) : List Piece → Text
  | [] => []
  | .text bytes :: ps => bytes ++ fill driver i ps
  | .named _ :: ps => placeholder driver (i + 1) ++ fill driver (i + 1) ps

theorem parameterName_append (cs : Text) : parameterName cs ++ cs.drop (parameterName cs).length = cs := by
  have front : parameterName cs <+: cs := by
    cases cs with
    | nil => exact List.prefix_refl _
    | cons c cs =>
      rw [parameterName]
      split
      · exact List.prefix_cons_inj c |>.mpr (List.takeWhile_prefix isName)
      · exact List.nil_prefix
  exact List.prefix_iff_eq_append.mp front

/-- The pieces are the text, with each name where it stood. -/
theorem flatMap_source_piecesFrom (driver : Driver) (before rest : Text) :
    (piecesFrom driver before rest).flatMap Piece.source = rest := by
  fun_induction piecesFrom driver before rest with
  | case1 => rfl
  | case2 before c cs n region ih =>
    rw [List.flatMap_cons, ih, Piece.source, List.cons_append, List.take_append_drop]
  | case3 before cs doubled region ih =>
    obtain ⟨cs', rfl⟩ : ∃ cs', cs = ':'.toUInt8 :: cs' := List.head?_eq_some_iff.mp doubled
    rw [List.flatMap_cons, ih]
    rfl
  | case4 before cs single named region ih =>
    rw [List.flatMap_cons, ih, Piece.source, List.cons_append, parameterName_append]
  | case5 before cs single unnamed region ih => rw [List.flatMap_cons, ih]; rfl
  | case6 before c cs region other ih => rw [List.flatMap_cons, ih]; rfl

/-- Behind each piece the scan goes on with the bytes that are left. -/
theorem piecesFrom_append {driver : Driver} {before rest : Text} {ps qs : List Piece}
    (h : piecesFrom driver before rest = ps ++ qs) :
    qs = piecesFrom driver ((ps.flatMap Piece.source).reverse ++ before) (qs.flatMap Piece.source) := by
  induction ps generalizing before rest with
  | nil =>
    rw [List.nil_append] at h
    rw [← h, flatMap_source_piecesFrom]
    rfl
  | cons p ps ih =>
    have next {q : Piece} {passed left : Text} (split : q :: piecesFrom driver passed left = p :: (ps ++ qs))
        (step : passed = q.source.reverse ++ before) : qs = piecesFrom driver
          (((p :: ps).flatMap Piece.source).reverse ++ before) (qs.flatMap Piece.source) := by
      obtain ⟨rfl, next⟩ := List.cons.inj split
      rw [List.flatMap_cons, List.reverse_append, List.append_assoc, ← step]
      exact ih next
    rw [List.cons_append] at h
    revert h
    fun_cases piecesFrom driver before rest with
    | case1 => exact nofun
    | case2 => exact fun h => next h (by simp [Piece.source, pass])
    | case3 cs doubled =>
      obtain ⟨cs', rfl⟩ : ∃ cs', cs = ':'.toUInt8 :: cs' := List.head?_eq_some_iff.mp doubled
      exact fun h => next h rfl
    | case4 cs =>
      have front : parameterName cs = cs.take (parameterName cs).length :=
        List.prefix_iff_eq_take.mp ⟨_, parameterName_append cs⟩
      exact fun h => next h (by simp [Piece.source, pass, ← front])
    | case5 => exact fun h => next h rfl
    | case6 => exact fun h => next h rfl

/-- The discovered parameters are the names of the pieces. -/
theorem filterMap_name_piecesFrom (driver : Driver) (before rest : Text) :
    (piecesFrom driver before rest).filterMap Piece.name? = parametersFrom driver before rest := by
  fun_induction piecesFrom driver before rest <;> rw [parametersFrom] <;>
    simp_all [Piece.name?, List.filterMap_cons]

/-- The values of the names of some pieces; the first name without one is an error. -/
def values {V : Type} (params : Text → Option V) : List Text → Except BindError (List V)
  | [] => .ok []
  | name :: names =>
    match params name with
    | none => .error (.missingSQLParam name)
    | some v => (v :: ·) <$> values params names

section Loop

variable {V : Type} (driver : Driver) (params : Text → Option V)

theorem fill_text (i : ℕ) (bytes : Text) (ps : List Piece) (bound : Except BindError (List V)) :
    (do let (out, args) ← (fill driver i ps, ·) <$> bound; return (bytes ++ out, args)) =
      (fill driver i (.text bytes :: ps), ·) <$> bound := by
  cases bound <;> rfl

theorem fill_named (i : ℕ) (name : Text) (v : V) (ps : List Piece) (bound : Except BindError (List V)) :
    (do let (out, args) ← (fill driver (i + 1) ps, ·) <$> bound
        return (placeholder driver (i + 1) ++ out, v :: args)) =
      (fill driver i (.named name :: ps), ·) <$> (v :: ·) <$> bound := by
  cases bound <;> rfl

/-- The loop binds the names of the pieces and fills the pieces with placeholders. -/
theorem buildFrom_eq (i : ℕ) (before rest : Text) :
    buildFrom driver params i before rest =
      (fill driver i (piecesFrom driver before rest), ·) <$> values params (parametersFrom driver before rest) := by
  fun_induction piecesFrom driver before rest generalizing i with
  | case1 before =>
    rw [buildFrom, parametersFrom]
    rfl
  | case2 before c cs n region ih =>
    rw [buildFrom, parametersFrom]
    simp only [region]
    rw [ih, ← fill_text]
  | case3 before cs doubled region ih =>
    rw [buildFrom, parametersFrom]
    simp only [region, doubled, if_true]
    rw [ih, ← fill_text]
  | case4 before cs single named region ih =>
    rw [buildFrom, parametersFrom]
    simp only [region, single, named, if_true, if_false, values]
    cases params (parameterName cs) with
    | none => rfl
    | some v =>
      dsimp only
      rw [ih, ← fill_named]
  | case5 before cs single unnamed region ih =>
    rw [buildFrom, parametersFrom]
    simp only [region, single, unnamed, if_true, if_false]
    rw [ih, ← fill_text]
    rfl
  | case6 before c cs region other ih =>
    rw [buildFrom, parametersFrom]
    simp only [region, other, if_false]
    rw [ih, ← fill_text]
    rfl

variable {query : Text} {args : List V} {names : List Text}

theorem buildSQL_eq_ok {out : Text} :
    buildSQL driver params query = .ok (out, args) ↔
      query ≠ [] ∧ values params (parameters driver query) = .ok args ∧
        fill driver 0 (pieces driver query) = out := by
  rw [buildSQL, validateSQLShape, parameters, pieces]
  by_cases empty : query = []
  · simp [empty, bind, Except.bind]
  · rw [if_neg empty]
    change buildFrom driver params 0 [] query = _ ↔ _
    rw [buildFrom_eq]
    cases values params (parametersFrom driver [] query) with
    | error e => simp [Functor.map, Except.map]
    | ok vs => simp [Functor.map, Except.map, empty, and_comm]

theorem values_eq_ok : values params names = .ok args ↔ names.map params = args.map some := by
  induction names generalizing args with
  | nil => cases args <;> simp [values]
  | cons name names ih =>
    rw [values, List.map_cons]
    cases params name with
    | none => cases args <;> simp
    | some v =>
      cases args with
      | nil => cases values params names <;> simp [Functor.map, Except.map]
      | cons a args =>
        rw [List.map_cons, List.cons.injEq, Option.some.injEq, ← ih]
        cases values params names <;> simp [Functor.map, Except.map]

theorem exists_values_eq_ok_iff : (∃ args, values params names = .ok args) ↔ ∀ name ∈ names, params name ≠ none := by
  simp only [values_eq_ok]
  induction names with
  | nil => exact ⟨fun _ _ h => absurd h List.not_mem_nil, fun _ => ⟨[], rfl⟩⟩
  | cons name names ih =>
    rw [List.forall_mem_cons, ← ih]
    constructor
    · rintro ⟨args, h⟩
      cases args with
      | nil => cases h
      | cons v args =>
        obtain ⟨first, others⟩ := List.cons.inj h
        exact ⟨by simp [first], args, others⟩
    · rintro ⟨first, args, others⟩
      obtain ⟨v, bound⟩ := Option.ne_none_iff_exists'.mp first
      exact ⟨v :: args, by rw [List.map_cons, List.map_cons, bound, others]⟩

theorem buildSQL_eq_error_iff :
    (∃ e, buildSQL driver params query = .error e) ↔
      query = [] ∨ ∃ name ∈ parameters driver query, params name = none := by
  have fails : (∃ e, buildSQL driver params query = .error e) ↔
      ¬ ∃ out args, buildSQL driver params query = .ok (out, args) := by
    cases buildSQL driver params query with
    | error e => simp
    | ok r => exact iff_of_false (by simp) (not_not.mpr ⟨r.1, r.2, rfl⟩)
  have succeeds : (∃ out args, buildSQL driver params query = .ok (out, args)) ↔
      query ≠ [] ∧ ∃ args, values params (parameters driver query) = .ok args := by
    simp [buildSQL_eq_ok]
  rw [fails, succeeds, exists_values_eq_ok_iff]
  grind

end Loop

/-- A region that the scan reaches is one piece of text, and so is a doubled colon outside of it. -/
theorem head_pieces {driver : Driver} {query : Text} {ps qs : List Piece} (h : pieces driver query = ps ++ qs)
    (start : ℕ) (reached : start = (ps.flatMap Piece.source).length) :
    (∀ stop, protectedRegionEnd driver query start = some stop →
      qs.head? = some (.text ((query.take stop).drop start))) ∧
    (protectedRegionEnd driver query start = none → ascii "::" <+: query.drop start →
      qs.head? = some (.text (ascii "::"))) := by
  have whole : ps.flatMap Piece.source ++ qs.flatMap Piece.source = query := by
    rw [← List.flatMap_append, ← h]
    exact flatMap_source_piecesFrom driver [] query
  have left : query.drop start = qs.flatMap Piece.source := by rw [← whole, reached, List.drop_left]
  have passed : query.take start = ps.flatMap Piece.source := by rw [← whole, reached, List.take_left]
  have split : qs = piecesFrom driver (query.take start).reverse (query.drop start) := by
    rw [left, passed, ← List.append_nil (List.reverse _)]
    exact piecesFrom_append h
  rw [protectedRegionEnd, split]
  clear split left
  cases rest : query.drop start with
  | nil => exact ⟨nofun, fun _ doubled => absurd doubled (by decide)⟩
  | cons c cs =>
    dsimp only
    rw [piecesFrom]
    cases region : protectedRegion driver (query.take start).reverse c cs with
    | some n =>
      refine ⟨fun stop stops => ?_, nofun⟩
      obtain rfl := Option.some.inj stops
      rw [List.drop_take, rest, show start + 1 + n - start = n + 1 by omega, List.take_succ_cons]
      rfl
    | none =>
      refine ⟨nofun, fun _ doubled => ?_⟩
      obtain ⟨cs', doubled⟩ := doubled
      rw [show ascii "::" = [':'.toUInt8, ':'.toUInt8] from rfl] at doubled
      obtain ⟨rfl, rfl⟩ := List.cons.inj doubled
      rfl

/-- Binding agrees with discovery. The query is its pieces; the names among them are the discovered parameters. Where
`buildSQL` succeeds, its arguments are the values of the parameters in order and its text is the pieces with the
`k`-th name replaced by the `k`-th placeholder. It fails just for an empty query or a parameter that is missing; a
region that a scan passes over ends behind its start and within the query; and where the scan reaches a region or a
doubled colon, it is one piece that is copied. -/
theorem buildSQL_binds_parameters {V : Type} (driver : Driver) (params : Text → Option V) (query : Text) :
    (pieces driver query).flatMap Piece.source = query ∧
    (pieces driver query).filterMap Piece.name? = parameters driver query ∧
    (∀ out args, buildSQL driver params query = .ok (out, args) →
      (parameters driver query).map params = args.map some ∧ out = fill driver 0 (pieces driver query)) ∧
    ((∃ e, buildSQL driver params query = .error e) ↔
      query = [] ∨ ∃ name ∈ parameters driver query, params name = none) ∧
    (∀ start stop, protectedRegionEnd driver query start = some stop → start < stop ∧ stop ≤ query.length) ∧
    ∀ ps qs start, pieces driver query = ps ++ qs → start = (ps.flatMap Piece.source).length →
      (∀ stop, protectedRegionEnd driver query start = some stop →
        qs.head? = some (.text ((query.take stop).drop start))) ∧
      (protectedRegionEnd driver query start = none → ascii "::" <+: query.drop start →
        qs.head? = some (.text (ascii "::"))) := by
  refine ⟨flatMap_source_piecesFrom driver [] query, filterMap_name_piecesFrom driver [] query, ?_,
    buildSQL_eq_error_iff driver params, fun _ _ => protectedRegionEnd_bounds, fun _ _ start split =>
      head_pieces split start⟩
  intro out args built
  obtain ⟨-, bound, filled⟩ := (buildSQL_eq_ok driver params).mp built
  exact ⟨(values_eq_ok params).mp bound, filled.symm⟩

/-- A query with a quoted name, a cast and two parameters. -/
def orderQuery : Text := ascii "select ':id', total::text from orders where id = :id and day = :day"

/-- The parameters of `orderQuery`. -/
def orderParams (name : Text) : Option ℕ :=
  if name = ascii "id" then some 7 else if name = ascii "day" then some 12 else none

theorem buildSQL_binds_parameters_orders :
    parameters .postgres orderQuery = [ascii "id", ascii "day"] ∧
    buildSQL .postgres orderParams orderQuery =
      .ok (ascii "select ':id', total::text from orders where id = $1 and day = $2", [7, 12]) ∧
    ascii "select ':id', total::text from orders where id = $1 and day = $2" =
      fill .postgres 0 (pieces .postgres orderQuery) := by
  have built : buildSQL .postgres orderParams orderQuery =
      .ok (ascii "select ':id', total::text from orders where id = $1 and day = $2", [7, 12]) := by decide +kernel
  exact ⟨by decide +kernel, built,
    ((buildSQL_binds_parameters .postgres orderParams orderQuery).2.2.1 _ _ built).2⟩

end Onprest.Sql
