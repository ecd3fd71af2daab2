import Mathlib.Data.List.Basic

/-! The lexical rules of SQL texts by driver: where quoted and commented regions end, the named parameters outside
them, and the classification of a text by its words. A scanner stands between the bytes it has passed, the last one
first, and the bytes to come. -/

namespace Onprest.Sql

abbrev Text := List UInt8

inductive Driver
  | postgres | mysql | sqlserver | oracle | other
deriving DecidableEq

def isIdent (b : UInt8) : Bool :=
  b == '_'.toUInt8 || decide ('a'.toUInt8 ≤ b) && decide (b ≤ 'z'.toUInt8) ||
    decide ('A'.toUInt8 ≤ b) && decide (b ≤ 'Z'.toUInt8)

def isDigit (b : UInt8) : Bool := decide ('0'.toUInt8 ≤ b) && decide (b ≤ '9'.toUInt8)

/-- A byte that continues a name. -/
def isName (b : UInt8) : Bool := isIdent b || isDigit b

/-- `ParameterName`: the name at the front of a text; empty if there is none. -/
def parameterName : Text → Text
  | [] => []
  | c :: cs => if isIdent c then c :: cs.takeWhile isName else []

/-! ### Ends of regions

Each function counts the bytes of a region behind the ones that opened it; a region that is not closed goes on to the
end. -/

/-- `skipSQLQuoted`: up to the next quote that is not doubled. -/
def skipSQLQuoted (quote : UInt8) (backslashEscapes : Bool) : Text → ℕ
  | [] => 0
  | c :: cs =>
    if backslashEscapes && c == '\\'.toUInt8 && !cs.isEmpty then
      match cs with
      | [] => 1
      | _ :: cs => 2 + skipSQLQuoted quote backslashEscapes cs
    else if c ≠ quote then 1 + skipSQLQuoted quote backslashEscapes cs
    else
      match cs with
      | d :: cs => if d = quote then 2 + skipSQLQuoted quote backslashEscapes cs else 1
      | [] => 1

/-- `isPostgresEscapeStringPrefix`: what stands before the quote. -/
def isPostgresEscapeStringPrefix : Text → Bool
  | [] => false
  | e :: before =>
    (e == 'e'.toUInt8 || e == 'E'.toUInt8) &&
      match before with
      | [] => true
      | b :: _ => !isIdent b

def skipSQLBracketIdentifier : Text → ℕ := skipSQLQuoted ']'.toUInt8 false

/-- `isOracleAlternativeQuotePrefix`. -/
def isOracleAlternativeQuotePrefix (before rest : Text) : Bool :=
  match rest with
  | q :: quote :: _ :: _ =>
    (q == 'q'.toUInt8 || q == 'Q'.toUInt8) && quote == '\''.toUInt8 &&
      match before with
      | [] => true
      | b :: _ => !isIdent b
  | _ => false

/-- The delimiter that closes an alternative quote. -/
def closing (opening : UInt8) : UInt8 :=
  if opening = '['.toUInt8 then ']'.toUInt8
  else if opening = '('.toUInt8 then ')'.toUInt8
  else if opening = '{'.toUInt8 then '}'.toUInt8
  else if opening = '<'.toUInt8 then '>'.toUInt8
  else opening

/-- `skipOracleAlternativeQuote`: up to the closing delimiter with a quote behind it. -/
def skipOracleAlternativeQuote (closing : UInt8) : Text → ℕ
  | a :: b :: cs => if a = closing ∧ b = '\''.toUInt8 then 2 else 1 + skipOracleAlternativeQuote closing (b :: cs)
  | [_] => 1
  | [] => 0

/-- `skipSQLLineComment`: up to and with the next line feed. -/
def skipSQLLineComment : Text → ℕ
  | [] => 0
  | c :: cs => if c = '\n'.toUInt8 then 1 else 1 + skipSQLLineComment cs

/-- `skipSQLBlockComment`: up to the end of the comment, `depth` comments being open. -/
def skipSQLBlockComment (nested : Bool) (depth : ℕ) : Text → ℕ
  | a :: b :: cs =>
    if a = '/'.toUInt8 ∧ b = '*'.toUInt8 ∧ nested then 2 + skipSQLBlockComment nested (depth + 1) cs
    else if a = '*'.toUInt8 ∧ b = '/'.toUInt8 then
      if depth = 1 then 2 else 2 + skipSQLBlockComment nested (depth - 1) cs
    else 1 + skipSQLBlockComment nested depth (b :: cs)
  | [_] => 1
  | [] => 0

def nestsComments (driver : Driver) : Bool := driver == .postgres || driver == .sqlserver

/-- `strings.Index`. -/
def indexOf (pattern : Text) : Text → Option ℕ
  | [] => if pattern = [] then some 0 else none
  | c :: cs => if pattern.isPrefixOf (c :: cs) then some 0 else (indexOf pattern cs).map (· + 1)

def dollarTag (name : Text) : Text := '$'.toUInt8 :: name ++ ['$'.toUInt8]

/-- The text of a dollar quote behind its first tag, and its second tag. -/
def dollarBody (tag body : Text) : ℕ :=
  match indexOf tag body with
  | none => body.length
  | some n => n + tag.length

/-- `skipSQLDollarQuote`, behind the first dollar sign: the tag, and the text up to its repetition. -/
def skipSQLDollarQuote (cs : Text) : Option ℕ :=
  let name := cs.takeWhile isName
  match cs.dropWhile isName with
  | d :: body => if d = '$'.toUInt8 then some (name.length + 1 + dollarBody (dollarTag name) body) else none
  | [] => none

/-- `ProtectedRegionEnd`: the bytes of the region that `c` opens, behind `c`. -/
def protectedRegion (driver : Driver) (before : Text) (c : UInt8) (cs : Text) : Option ℕ :=
  if c = '\''.toUInt8 then
    some (skipSQLQuoted '\''.toUInt8 (driver == .postgres && isPostgresEscapeStringPrefix before) cs)
  else if c = '"'.toUInt8 then some (skipSQLQuoted '"'.toUInt8 false cs)
  else if driver = .mysql ∧ c = 96 then some (skipSQLQuoted 96 false cs)
  else if driver = .sqlserver ∧ c = '['.toUInt8 then some (skipSQLBracketIdentifier cs)
  else if driver = .oracle ∧ isOracleAlternativeQuotePrefix before (c :: cs) then
    match cs with
    | _ :: opening :: cs => some (2 + skipOracleAlternativeQuote (closing opening) cs)
    | _ => none
  else if c = '-'.toUInt8 ∧ cs.head? = some '-'.toUInt8 then some (1 + skipSQLLineComment cs.tail)
  else if c = '/'.toUInt8 ∧ cs.head? = some '*'.toUInt8 then
    some (1 + skipSQLBlockComment (nestsComments driver) 1 cs.tail)
  else if driver = .postgres ∧ c = '$'.toUInt8 then skipSQLDollarQuote cs
  else none

/-- `ProtectedRegionEnd`, at a place in a query. -/
def protectedRegionEnd (driver : Driver) (query : Text) (start : ℕ) : Option ℕ :=
  match query.drop start with
  | [] => none
  | c :: cs => (protectedRegion driver (query.take start).reverse c cs).map (start + 1 + ·)

/-! ### Regions lie in the text -/

theorem skipSQLQuoted_le (quote : UInt8) (escapes : Bool) (cs : Text) :
    skipSQLQuoted quote escapes cs ≤ cs.length := by
  fun_induction skipSQLQuoted quote escapes cs <;> simp_all <;> omega

theorem skipOracleAlternativeQuote_le (c : UInt8) (cs : Text) :
    skipOracleAlternativeQuote c cs ≤ cs.length := by
  fun_induction skipOracleAlternativeQuote c cs with
  | case2 a b cs _ ih =>
    simp only [List.length_cons] at ih ⊢
    omega
  | _ => simp

theorem skipSQLLineComment_le (cs : Text) : skipSQLLineComment cs ≤ cs.length := by
  fun_induction skipSQLLineComment cs with
  | case3 c cs _ ih =>
    rw [List.length_cons]
    omega
  | _ => simp

theorem skipSQLBlockComment_le (nested : Bool) (depth : ℕ) (cs : Text) :
    skipSQLBlockComment nested depth cs ≤ cs.length := by
  fun_induction skipSQLBlockComment nested depth cs <;> simp_all <;> omega

variable {cs : Text} {n : ℕ} {driver : Driver}

theorem indexOf_le {pattern : Text} (h : indexOf pattern cs = some n) : n + pattern.length ≤ cs.length := by
  induction cs generalizing n with
  | nil =>
    by_cases empty : pattern = []
    · simp_all [indexOf, eq_comm]
    · simp [indexOf, empty] at h
  | cons c cs ih =>
    rw [indexOf] at h
    split at h
    · rename_i front
      cases h
      simpa using (List.isPrefixOf_iff_prefix.mp front).length_le
    · obtain ⟨m, found, rfl⟩ := Option.map_eq_some_iff.mp h
      have := ih found
      rw [List.length_cons]
      omega

theorem dollarBody_le (tag body : Text) : dollarBody tag body ≤ body.length := by
  unfold dollarBody
  split
  · exact Nat.le_refl _
  · rename_i n found
    exact indexOf_le found

theorem skipSQLDollarQuote_le (h : skipSQLDollarQuote cs = some n) : n ≤ cs.length := by
  have parts : (cs.takeWhile isName).length + (cs.dropWhile isName).length = cs.length := by
    rw [← List.length_append, List.takeWhile_append_dropWhile]
  simp only [skipSQLDollarQuote] at h
  split at h
  · rename_i d body rest
    rw [rest, List.length_cons] at parts
    have := dollarBody_le (dollarTag (cs.takeWhile isName)) body
    split at h
    · cases h
      omega
    · cases h
  · cases h

/-- A region lies in the text. -/
theorem protectedRegion_le {before : Text} {c : UInt8} (h : protectedRegion driver before c cs = some n) :
    n ≤ cs.length := by
  have second : ∀ {b : UInt8} (skip : Text → ℕ), (∀ cs, skip cs ≤ cs.length) →
      cs.head? = some b → 1 + skip cs.tail ≤ cs.length := by
    intro b skip le front
    cases cs with
    | nil => cases front
    | cons _ cs =>
      have := le cs
      rw [List.tail_cons, List.length_cons]
      omega
  unfold protectedRegion at h
  split_ifs at h with _ _ _ _ _ line block
  · cases h
    apply skipSQLQuoted_le
  · cases h
    apply skipSQLQuoted_le
  · cases h
    apply skipSQLQuoted_le
  · cases h
    apply skipSQLQuoted_le
  · split at h
    · rename_i opening cs
      cases h
      have := skipOracleAlternativeQuote_le (closing opening) cs
      simp only [List.length_cons]
      omega
    · cases h
  · cases h
    exact second _ skipSQLLineComment_le line.2
  · cases h
    exact second _ (skipSQLBlockComment_le (nestsComments driver) 1) block.2
  · exact skipSQLDollarQuote_le h

/-- `ProtectedRegionEnd` advances within the query. -/
theorem protectedRegionEnd_bounds {query : Text} {start stop : ℕ}
    (h : protectedRegionEnd driver query start = some stop) : start < stop ∧ stop ≤ query.length := by
  unfold protectedRegionEnd at h
  split at h
  · cases h
  · rename_i c cs rest
    obtain ⟨n, region, rfl⟩ := Option.map_eq_some_iff.mp h
    have left : query.length - start = cs.length + 1 := by rw [← List.length_drop, rest, List.length_cons]
    have := protectedRegion_le region
    omega

/-- What has been passed, `n` bytes later. -/
def pass (n : ℕ) (before rest : Text) : Text := (rest.take n).reverse ++ before

/-! ### Parameters -/

/-- `Parameters`, from a place in the text. -/
def parametersFrom (driver : Driver) (before rest : Text) : List Text :=
  match rest with
  | [] => []
  | c :: cs =>
    match protectedRegion driver before c cs with
    | some n => parametersFrom driver (pass n (c :: before) cs) (cs.drop n)
    | none =>
      if c = ':'.toUInt8 then
        if cs.head? = some ':'.toUInt8 then parametersFrom driver (pass 1 (c :: before) cs) cs.tail
        else
          let name := parameterName cs
          if 0 < name.length then
            name :: parametersFrom driver (pass name.length (c :: before) cs) (cs.drop name.length)
          else parametersFrom driver (c :: before) cs
      else parametersFrom driver (c :: before) cs
termination_by rest.length
decreasing_by all_goals simp only [List.length_drop, List.length_tail, List.length_cons]; omega

def parameters (driver : Driver) (query : Text) : List Text := parametersFrom driver [] query

/-! ### Classification -/

inductive Operation
  | select | insert | update | delete
deriving DecidableEq

def Operation.mutation : Operation → Bool
  | .select => false
  | _ => true

structure Classification where
  keyword : Text
  operation : Option Operation
  single : Bool
  returnsRows : Bool
deriving DecidableEq

/-- `onlySQLTrivia`: white space and comments. -/
def onlySQLTrivia (driver : Driver) (rest : Text) : Bool :=
  match rest with
  | [] => true
  | c :: cs =>
    if c = ' '.toUInt8 ∨ c = '\t'.toUInt8 ∨ c = '\r'.toUInt8 ∨ c = '\n'.toUInt8 then onlySQLTrivia driver cs
    else if c = '-'.toUInt8 ∧ cs.head? = some '-'.toUInt8 then
      onlySQLTrivia driver (cs.tail.drop (skipSQLLineComment cs.tail))
    else if c = '/'.toUInt8 ∧ cs.head? = some '*'.toUInt8 then
      onlySQLTrivia driver (cs.tail.drop (skipSQLBlockComment (nestsComments driver) 1 cs.tail))
    else false
termination_by rest.length
decreasing_by all_goals simp only [List.length_drop, List.length_tail, List.length_cons]; omega

/-- `strings.ToLower` at a byte of an ASCII word. -/
def lower (b : UInt8) : UInt8 := if 'A'.toUInt8 ≤ b ∧ b ≤ 'Z'.toUInt8 then b + 32 else b

/-- What a scan of a text finds: its words, in lower case; whether nothing but trivia follows a semicolon; and, of
each position, whether the scan passed over it as part of a protected region. -/
structure Scan where
  tokens : List Text
  single : Bool
  guarded : List Bool

/-- The loop of `scanSQLTokens`, from a place in the text. -/
def scanFrom (driver : Driver) (before rest : Text) : Scan :=
  match rest with
  | [] => ⟨[], true, []⟩
  | c :: cs =>
    match protectedRegion driver before c cs with
    | some n =>
      let s := scanFrom driver (pass n (c :: before) cs) (cs.drop n)
      { s with guarded := List.replicate (n + 1) true ++ s.guarded }
    | none =>
      if c = ';'.toUInt8 then
        let s := scanFrom driver (c :: before) cs
        { s with single := onlySQLTrivia driver cs && s.single, guarded := false :: s.guarded }
      else if isIdent c then
        let name := cs.takeWhile isName
        let s := scanFrom driver (pass name.length (c :: before) cs) (cs.drop name.length)
        { s with
          tokens := (c :: name).map lower :: s.tokens
          guarded := List.replicate (name.length + 1) false ++ s.guarded }
      else
        let s := scanFrom driver (c :: before) cs
        { s with guarded := false :: s.guarded }
termination_by rest.length
decreasing_by all_goals simp only [List.length_drop, List.length_cons]; omega

/-- `scanSQLTokens`. -/
def scanSQLTokens (driver : Driver) (query : Text) : List Text × Bool :=
  ((scanFrom driver [] query).tokens, (scanFrom driver [] query).single)

def ascii (s : String) : Text := s.toList.map Char.toUInt8

/-- `Classify`. -/
def classify (driver : Driver) (query : Text) : Classification :=
  match scanSQLTokens driver query with
  | ([], single) => ⟨[], none, single, false⟩
  | (keyword :: tokens, single) =>
    let operation :=
      if keyword = ascii "select" then some .select
      else if keyword = ascii "insert" then some .insert
      else if keyword = ascii "update" then some .update
      else if keyword = ascii "delete" then some .delete
      else none
    { keyword
      operation
      single
      returnsRows := operation.any Operation.mutation &&
        tokens.any fun token => token = ascii "returning" || driver = .sqlserver && token = ascii "output" }

end Onprest.Sql
