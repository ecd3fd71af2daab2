import Onprest.Contract.CsvOutput

/-! The record reader of the agent's CSV files, and what it makes of generated CSV. -/

namespace Onprest.Agent
open Lib Contract

/-- The errors of a CSV file; `encoding` is a byte that is no character. -/
inductive CsvError
  | encoding | unterminatedQuote | bareCR | afterQuote | quoteInField
  deriving DecidableEq, Repr

/-- The values 0 to 3 of `state`. -/
inductive CsvState
  | start | quoted | closed | plain
  deriving DecidableEq, Repr

/-- What `read` returns: a record with the characters behind it, or the end of the file. -/
abbrev CsvRead := Except CsvError (Option (List (List Char) × List Char))

/-- The loop of `csvRecords.read` over the characters of a file, which ends or is invalid behind them. A line break
before anything has started begins anew. -/
def readLoop (delimiter : Char) (ended : Bool) (fields : List (List Char)) (value : List Char) (state : CsvState)
    (started : Bool) : List Char → CsvRead
  | [] =>
    if !ended then .error .encoding
    else if state = .quoted then .error .unterminatedQuote
    else if !started then .ok none
    else .ok (some (fields ++ [value], []))
  | r :: rs =>
    if state = .quoted then
      if r = '"' then readLoop delimiter ended fields value .closed started rs
      else readLoop delimiter ended fields (value ++ [r]) .quoted started rs
    else if state = .closed ∧ r = '"' then readLoop delimiter ended fields (value ++ [r]) .quoted started rs
    else if r = delimiter then readLoop delimiter ended (fields ++ [value]) [] .start true rs
    else if r = '\n' then
      if !started then readLoop delimiter ended [] [] .start false rs else .ok (some (fields ++ [value], rs))
    else if r = '\r' then
      match rs with
      | '\n' :: rs =>
        if !started then readLoop delimiter ended [] [] .start false rs else .ok (some (fields ++ [value], rs))
      | [] => .error (if ended then .bareCR else .encoding)
      | _ :: _ => .error .bareCR
    else if state = .closed then .error .afterQuote
    else if r = '"' then
      if state ≠ .start then .error .quoteInField else readLoop delimiter ended fields value .quoted true rs
    else readLoop delimiter ended fields (value ++ [r]) .plain true rs

theorem readLoop_line {ended started : Bool} {fields : List (List Char)} {value : List Char} {state : CsvState}
    {rs : List Char} (hstate : state ≠ .quoted) :
    readLoop ',' ended fields value state started ('\r' :: '\n' :: rs) =
      if started then .ok (some (fields ++ [value], rs)) else readLoop ',' ended [] [] .start false rs := by
  rw [readLoop.eq_def]
  cases started <;> simp [hstate]

/-- `csvRecords.read`. -/
def csvRead (delimiter : Char) (ended : Bool) (rs : List Char) : CsvRead :=
  readLoop delimiter ended [] [] .start false rs

/-- Records are read until the file ends; `none` means that `fuel` calls were not enough. -/
def readRecords (delimiter : Char) (ended : Bool) :
    ℕ → List Char → Option (Except CsvError (List (List (List Char))))
  | 0, _ => none
  | fuel + 1, rs =>
    match csvRead delimiter ended rs with
    | .error e => some (.error e)
    | .ok none => some (.ok [])
    | .ok (some (record, rest)) => (readRecords delimiter ended fuel rest).map fun out => out.map (record :: ·)

/-- All records of a UTF-8 file. -/
def readCSV (delimiter : Char) (fuel : ℕ) (bs : List UInt8) : Option (Except CsvError (List (List (List Char)))) :=
  readRecords delimiter (runes bs).2 fuel (runes bs).1

/-! ### One record -/

/-- A character no rule of the format is about. -/
structure Ordinary (c : Char) : Prop where
  comma : c ≠ ','
  lineFeed : c ≠ '\n'
  carriageReturn : c ≠ '\r'
  quote : c ≠ '"'

section Read
variable {ended started : Bool} {fields : List (List Char)} {value : List Char} {state : CsvState} {c : Char}
  {rs : List Char}

theorem readLoop_ordinary (hstate : state = .start ∨ state = .plain) (hc : Ordinary c) :
    readLoop ',' ended fields value state started (c :: rs) =
      readLoop ',' ended fields (value ++ [c]) .plain true rs := by
  obtain ⟨hcomma, hlf, hcr, hquote⟩ := hc
  rw [readLoop.eq_def]
  rcases hstate with rfl | rfl <;> simp [hcomma, hlf, hcr, hquote]

theorem readLoop_inside (hc : c ≠ '"') :
    readLoop ',' ended fields value .quoted started (c :: rs) =
      readLoop ',' ended fields (value ++ [c]) .quoted started rs := by
  rw [readLoop.eq_def]
  simp [hc]

theorem readLoop_close :
    readLoop ',' ended fields value .quoted started ('"' :: rs) =
      readLoop ',' ended fields value .closed started rs := by
  rw [readLoop.eq_def]
  simp

theorem readLoop_doubled :
    readLoop ',' ended fields value .closed started ('"' :: rs) =
      readLoop ',' ended fields (value ++ ['"']) .quoted started rs := by
  rw [readLoop.eq_def]
  simp

theorem readLoop_open :
    readLoop ',' ended fields value .start started ('"' :: rs) =
      readLoop ',' ended fields value .quoted true rs := by
  rw [readLoop.eq_def]
  simp

theorem readLoop_comma (hstate : state ≠ .quoted) :
    readLoop ',' ended fields value state started (',' :: rs) =
      readLoop ',' ended (fields ++ [value]) [] .start true rs := by
  rw [readLoop.eq_def]
  simp [hstate]

variable {f : List Char}

theorem readLoop_plain (hf : ∀ c ∈ f, Ordinary c) :
    readLoop ',' ended fields value .plain true (f ++ rs) =
      readLoop ',' ended fields (value ++ f) .plain true rs := by
  induction f generalizing value with
  | nil => simp
  | cons c f ih =>
    rw [List.forall_mem_cons] at hf
    rw [List.cons_append, readLoop_ordinary (.inr rfl) hf.1, ih hf.2, List.append_assoc, List.singleton_append]

theorem readLoop_quoted :
    readLoop ',' ended fields value .quoted started
        (f.flatMap (fun c => if c = '"' then ['"', '"'] else [c]) ++ '"' :: rs) =
      readLoop ',' ended fields (value ++ f) .closed started rs := by
  induction f generalizing value with
  | nil => simp [readLoop_close]
  | cons c f ih =>
    rw [List.flatMap_cons, List.append_assoc]
    by_cases hc : c = '"'
    · subst hc
      rw [if_pos rfl, List.cons_append, List.cons_append, List.nil_append, readLoop_close, readLoop_doubled, ih,
        List.append_assoc, List.singleton_append]
    · rw [if_neg hc, List.cons_append, List.nil_append, readLoop_inside hc, ih, List.append_assoc,
        List.singleton_append]

theorem ordinary_of_not_quoted (h : fieldNeedsQuotes f = false) : ∀ c ∈ f, Ordinary c := by
  intro c hc
  have hne : f ≠ [] := List.ne_nil_of_mem hc
  by_contra hspecial
  have hany : f.any (['\n', '\r', '"', ','].contains ·) = true := by
    refine List.any_eq_true.mpr ⟨c, hc, ?_⟩
    by_contra hplain
    refine hspecial ⟨?_, ?_, ?_, ?_⟩ <;> rintro rfl <;> exact hplain (by decide)
  rw [fieldNeedsQuotes, if_neg hne] at h
  split at h
  · cases h
  · rw [hany, Bool.true_or] at h
    cases h

/-- Reading a field leaves its text as the value and, unless it is empty, a record that has started. -/
theorem readLoop_field (f : List Char) :
    ∃ state, state ≠ .quoted ∧
      readLoop ',' ended fields [] .start started (fieldText f ++ rs) =
        readLoop ',' ended fields f state (started || f ≠ []) rs := by
  cases hquotes : fieldNeedsQuotes f with
  | true =>
    refine ⟨.closed, by decide, ?_⟩
    have hne : f ≠ [] := by
      rintro rfl
      simp [fieldNeedsQuotes] at hquotes
    rw [fieldText, if_pos hquotes, List.cons_append, List.cons_append, readLoop_open,
      List.append_assoc, List.cons_append, List.nil_append, readLoop_quoted]
    simp [hne]
  | false =>
    rw [fieldText, hquotes]
    cases f with
    | nil => exact ⟨.start, by decide, by simp⟩
    | cons c f =>
      refine ⟨.plain, by decide, ?_⟩
      have hordinary := ordinary_of_not_quoted hquotes
      rw [List.forall_mem_cons] at hordinary
      simp only [Bool.false_eq_true, if_false, List.cons_append]
      rw [readLoop_ordinary (.inl rfl) hordinary.1, List.nil_append, readLoop_plain hordinary.2]
      simp

/-- The fields of a record up to the end of its line. -/
theorem readLoop_fields {fs : List (List Char)} (hne : fs ≠ []) :
    readLoop ',' ended fields [] .start started (fieldsText fs ++ '\r' :: '\n' :: rs) =
      if started || fs ≠ [[]] then .ok (some (fields ++ fs, rs)) else readLoop ',' ended [] [] .start false rs := by
  induction fs generalizing fields started with
  | nil => exact absurd rfl hne
  | cons f fs ih =>
    cases fs with
    | nil =>
      obtain ⟨state, hstate, hread⟩ := readLoop_field f
      have htext : fieldsText [f] = fieldText f := by simp [fieldsText, List.intercalate]
      rw [htext, hread, readLoop_line hstate]
      simp
    | cons g gs =>
      obtain ⟨state, hstate, hread⟩ := readLoop_field f
      have htext : fieldsText (f :: g :: gs) = fieldText f ++ ',' :: fieldsText (g :: gs) := by
        simp [fieldsText, List.intercalate_cons_cons]
      rw [htext, List.append_assoc, hread, List.cons_append, readLoop_comma hstate, ih (by simp)]
      simp

/-- A written record is read back, unless its line is blank. -/
theorem csvRead_record {fs : List (List Char)} (hne : fs ≠ []) :
    csvRead ',' ended (fieldsText fs ++ '\r' :: '\n' :: rs) =
      if fs = [[]] then csvRead ',' ended rs else .ok (some (fs, rs)) := by
  rw [csvRead, readLoop_fields hne]
  by_cases hblank : fs = [[]] <;> simp [hblank, csvRead]

end Read

/-! ### All records -/

/-- Reading back drops exactly the records whose only field is empty. -/
theorem readRecords_lines {records : List (List (List Char))} (hne : ∀ record ∈ records, record ≠ []) {fuel : ℕ}
    (hfuel : records.length < fuel) :
    readRecords ',' true fuel (linesText records) = some (.ok (records.filter (· ≠ [[]]))) := by
  induction records generalizing fuel with
  | nil =>
    obtain ⟨fuel, rfl⟩ := Nat.exists_eq_succ_of_ne_zero (Nat.ne_of_gt hfuel)
    simp [linesText, readRecords, csvRead, readLoop]
  | cons record records ih =>
    rw [List.forall_mem_cons] at hne
    rw [List.length_cons] at hfuel
    obtain ⟨fuel, rfl⟩ := Nat.exists_eq_succ_of_ne_zero (Nat.ne_of_gt (Nat.zero_lt_of_lt hfuel))
    have htext : linesText (record :: records) = fieldsText record ++ '\r' :: '\n' :: linesText records := by
      simp [linesText]
    have hread := @csvRead_record true (linesText records) record hne.1
    by_cases hblank : record = [[]]
    · have hrest := ih hne.2 (Nat.lt_of_succ_lt hfuel)
      rw [readRecords] at hrest
      rw [readRecords, htext, hread, if_pos hblank, hrest]
      simp [hblank]
    · rw [readRecords, htext, hread, if_neg hblank]
      simp [ih hne.2 (Nat.lt_of_succ_lt_succ hfuel), hblank, Except.map]

/-! ### Generated CSV -/

/-- WriteCSV writes the header and one record per row, and reading them back returns every record but those whose
only cell is empty. Hence all records come back exactly if there are several columns or no row has an empty cell. -/
theorem readCSV_writeCSV (chunking : Chunking) (o : CsvOutput) {projected : Value} {metadata columns : List String}
    {rows : List (List (String × Value))} (hescape : o.formulaEscape = false)
    (hrows : outputPointer projected o.source = .ok (.arr (rows.map .obj)))
    (hcolumns : csvColumns o metadata = .ok columns) (hne : columns ≠ []) (hvalid : validateColumns columns = true)
    (hmetadata : o.rowProvider = true → columns.all metadata.contains = true)
    (hcells : ∀ row ∈ rows, ∀ name ∈ columns, ∀ v ∈ Fields.get name row, PlainCell v) :
    ∃ bytes, writeCSV chunking o projected metadata = .ok bytes ∧
      ((∃ enough, ∀ fuel, enough ≤ fuel →
          readCSV ',' fuel bytes = some (.ok (columns.map String.toList :: rows.map (rowCells columns)))) ↔
        (columns.length = 1 → ∀ row ∈ rows, ∀ name ∈ columns, cellText (Fields.get name row) ≠ [])) := by
  have hall : ∀ record ∈ columns.map String.toList :: rows.map (rowCells columns), record ≠ [] := by
    rw [List.forall_mem_cons, List.forall_mem_map]
    exact ⟨by simpa using hne, fun row _ => by simpa [rowCells] using hne⟩
  have hheader : columns.map String.toList ≠ [[]] := by
    intro heq
    obtain ⟨name, rfl, hname⟩ := List.map_eq_singleton_iff.mp heq
    rw [String.toList_eq_nil_iff] at hname
    simp [validateColumns, hname] at hvalid
  refine ⟨_, writeCSV_eq chunking o hescape hrows hcolumns hne hvalid hmetadata hcells, ?_⟩
  -- Reading returns the records that are not blank, so all come back when none is.
  have hread : ∀ fuel, rows.length + 1 < fuel →
      readCSV ',' fuel (encodeUtf8 (linesText (columns.map String.toList :: rows.map (rowCells columns)))) =
        some (.ok (columns.map String.toList :: (rows.map (rowCells columns)).filter (· ≠ [[]]))) := by
    intro fuel hfuel
    rw [readCSV, runes_encode, readRecords_lines hall (by simpa using hfuel),
      List.filter_cons_of_pos (by simpa using hheader)]
  have hcond : (rows.map (rowCells columns)).filter (· ≠ [[]]) = rows.map (rowCells columns) ↔
      (columns.length = 1 → ∀ row ∈ rows, ∀ name ∈ columns, cellText (Fields.get name row) ≠ []) := by
    rw [List.filter_eq_self, List.forall_mem_map]
    constructor
    · intro h hone row hrow name hname hempty
      obtain ⟨only, rfl⟩ := List.length_eq_one_iff.mp hone
      rw [List.mem_singleton] at hname
      subst hname
      simpa [rowCells, hempty] using h row hrow
    · intro h row hrow
      rw [decide_eq_true_iff]
      intro hblank
      obtain ⟨only, rfl, hempty⟩ := List.map_eq_singleton_iff.mp hblank
      exact h rfl row hrow only (List.mem_singleton_self _) hempty
  rw [← hcond]
  constructor
  · rintro ⟨enough, h⟩
    have hboth := (hread (max enough (rows.length + 2)) (by omega)).symm.trans (h _ (by omega))
    simpa using hboth
  · intro h
    refine ⟨rows.length + 2, fun fuel hfuel => ?_⟩
    rw [hread fuel (by omega), h]

/-- A buffer that passes on everything at once. -/
def wholeChunk : Chunking := ⟨fun bs => [bs], fun bs => by simp⟩

/-- The rows themselves are published, in the given columns. -/
def plainOutput (columns : List String) : CsvOutput where
  source := ""
  columns := some columns
  formulaEscape := false
  schema := freeSchema
  rowProvider := false

/-- A row with quotes, a comma, line breaks and a leading space, and one with nothing in it. -/
def mixedRows : List (List (String × Value)) :=
  [[("a", .str "x\"y,\r\n z"), ("b", .num (.int64 (-7)))], [("b", .null), ("a", .str "")]]

def mixedRecords : List (List (List Char)) :=
  [["a".toList, "b".toList], ["x\"y,\r\n z".toList, "-7".toList], [[], []]]

theorem readCSV_writeCSV_mixed :
    ∃ bytes, writeCSV wholeChunk (plainOutput ["a", "b"]) (.arr (mixedRows.map .obj)) [] = .ok bytes ∧
      ∃ enough, ∀ fuel, enough ≤ fuel → readCSV ',' fuel bytes = some (.ok mixedRecords) := by
  have hcells : ∀ row ∈ mixedRows, ∀ name ∈ ["a", "b"], ∀ v ∈ Fields.get name row, PlainCell v := by
    simp only [mixedRows, List.forall_mem_cons, Fields.get]
    simp [PlainCell.str, PlainCell.int64, PlainCell.null]
  obtain ⟨bytes, hbytes, hread⟩ := readCSV_writeCSV wholeChunk (plainOutput ["a", "b"]) rfl rfl rfl (by simp)
    (by decide) (fun h => by cases h) hcells
  exact ⟨bytes, hbytes, hread.mpr (fun h => by cases h)⟩

/-- A row whose only cell is empty is not read back. -/
theorem readCSV_blank_row :
    writeCSV wholeChunk (plainOutput ["a"]) (.arr [.obj [("a", .str "")]]) [] = .ok [97, 13, 10, 13, 10] ∧
      readCSV ',' 3 [97, 13, 10, 13, 10] = some (.ok [[['a']]]) ∧
      readCSV ',' 3 [97, 13, 10, 13, 10] ≠ some (.ok [[['a']], [[]]]) := by
  decide +kernel

/-! ### Formulas -/

/-- No spreadsheet takes the cell for a formula. -/
def Inert (cell : List Char) : Prop :=
  (∀ c ∈ cell.takeWhile isUnicodeSpace, c ∉ ['\t', '\r']) ∧
    ∀ c ∈ (cell.dropWhile isUnicodeSpace).head?, c ∉ ['=', '+', '-', '@']

theorem inert_escapeFormula (v : List Char) : Inert (escapeFormula v) := by
  rw [escapeFormula]
  have hquote : isUnicodeSpace '\'' = false := by decide
  split
  · have hcell : "'".toList ++ v = '\'' :: v := rfl
    rw [hcell, Inert, List.takeWhile_cons, List.dropWhile_cons, hquote]
    simp
  · rename_i hplain
    simp only [Bool.or_eq_true, not_or, Option.any_eq_true, List.any_eq_true, not_exists, not_and,
      List.contains_iff_mem]
      at hplain
    exact hplain

/-- A published cell is inert or the text of a boolean or a number. -/
def Published (cell : List Char) : Prop :=
  Inert cell ∨ (∃ b, canonicalJSON (.bool b) = some cell) ∨ ∃ n, canonicalJSON (.num n) = some cell

theorem published_csvCell {v : Option Value} {cell : List Char} (h : csvCell v true = .ok cell) :
    Published cell := by
  have hscalar {x : Value} (hx : (canonicalJSON x).elim (.error "number must be finite") Except.ok = .ok cell) :
      canonicalJSON x = some cell := by
    cases hc : canonicalJSON x with
    | none => simp [hc] at hx
    | some t => simpa [hc] using hx
  unfold csvCell at h
  split at h
  · cases h
    exact .inl (inert_escapeFormula [])
  · cases h
    exact .inl (inert_escapeFormula [])
  · cases h
    exact .inl (inert_escapeFormula _)
  · cases h
  · exact .inr (.inl ⟨_, hscalar h⟩)
  · exact .inr (.inr ⟨_, hscalar h⟩)
  · cases h

variable {columns : List String}

theorem published_mapM {row : List (String × Value)} {record : List (List Char)}
    (h : columns.mapM (fun name => csvCell (Fields.get name row) true) = .ok record) :
    (record = [] → columns = []) ∧ ∀ cell ∈ record, Published cell := by
  induction columns generalizing record with
  | nil =>
    cases h
    simp
  | cons name columns ih =>
    rw [List.mapM_cons] at h
    obtain ⟨cell, hcell, h⟩ := except_bind_eq_ok.mp h
    obtain ⟨cells, hcells, h⟩ := except_bind_eq_ok.mp h
    cases h
    exact ⟨nofun, List.forall_mem_cons.mpr ⟨published_csvCell hcell, (ih hcells).2⟩⟩

/-- What was written is the text of records of published cells. -/
theorem published_writeRows {chunking : Chunking} (hne : columns ≠ []) {dest bytes : List UInt8} {rows : List Value}
    (h : writeRows chunking columns true dest rows = .ok bytes) :
    ∃ records, bytes = dest ++ encodeUtf8 (linesText records) ∧
      ∀ record ∈ records, record ≠ [] ∧ ∀ cell ∈ record, Published cell := by
  induction rows generalizing dest with
  | nil =>
    cases h
    exact ⟨[], by simp [linesText], by simp⟩
  | cons row rows ih =>
    cases row with
    | obj row =>
      obtain ⟨record, hrecord, h⟩ := except_bind_eq_ok.mp h
      obtain ⟨dest', hdest, h⟩ := except_bind_eq_ok.mp h
      rw [writeRecord_eq] at hdest
      cases hdest
      obtain ⟨records, rfl, hall⟩ := ih h
      obtain ⟨hempty, hcells⟩ := published_mapM hrecord
      refine ⟨record :: records, ?_, List.forall_mem_cons.mpr ⟨⟨mt hempty hne, hcells⟩, hall⟩⟩
      rw [linesText_cons, encodeUtf8_append _ (linesText _), List.append_assoc]
    | _ => cases h

/-- With formula escaping on, every cell a reader finds in generated CSV is inert or a boolean or number. -/
theorem csv_formulas_escaped {chunking : Chunking} {o : CsvOutput} {projected : Value} {metadata : List String}
    {bytes : List UInt8} (hescape : o.formulaEscape = true)
    (h : writeCSV chunking o projected metadata = .ok bytes) :
    ∃ records, (∀ record ∈ records, ∀ cell ∈ record, Published cell) ∧
      ∃ enough, ∀ fuel, enough ≤ fuel → readCSV ',' fuel bytes = some (.ok records) := by
  unfold writeCSV at h
  obtain ⟨rows, -, h⟩ := except_bind_eq_ok.mp h
  split at h
  swap
  · cases h
  obtain ⟨columns, -, h⟩ := except_bind_eq_ok.mp h
  split_ifs at h with hnil
  rw [hescape] at h
  obtain ⟨dest, hdest, h⟩ := except_bind_eq_ok.mp h
  rw [writeRecord_eq] at hdest
  cases hdest
  obtain ⟨records, rfl, hall⟩ := published_writeRows hnil h
  generalize hheader : columns.map (fun name => escapeFormula name.toList) = header
  have hrecords : ∀ record ∈ header :: records, record ≠ [] ∧ ∀ cell ∈ record, Published cell := by
    refine List.forall_mem_cons.mpr ⟨⟨?_, ?_⟩, hall⟩
    · simpa [← hheader] using hnil
    · rw [← hheader, List.forall_mem_map]
      exact fun name _ => .inl (inert_escapeFormula _)
  refine ⟨(header :: records).filter (· ≠ [[]]), ?_, records.length + 2, fun fuel hfuel => ?_⟩
  · exact fun record hmem => (hrecords record (List.mem_of_mem_filter hmem)).2
  · rw [List.nil_append, ← encodeUtf8_append, ← linesText_cons, readCSV, runes_encode,
      readRecords_lines (fun record hmem => (hrecords record hmem).1) (by rw [List.length_cons]; omega)]

/-- A row with a formula behind a space, and a number. -/
def sumRows : Value := .arr [.obj [("a", .str " =SUM(A1)"), ("b", Value.num (.int64 (-7)))]]

def sumOutput : CsvOutput := { plainOutput ["a", "b"] with formulaEscape := true }

theorem csv_formulas_escaped_sum :
    ∃ bytes, writeCSV wholeChunk sumOutput sumRows [] = .ok bytes ∧
      ∃ records, (∀ record ∈ records, ∀ cell ∈ record, Published cell) ∧
        ∃ enough, ∀ fuel, enough ≤ fuel → readCSV ',' fuel bytes = some (.ok records) :=
  ⟨_, rfl, @csv_formulas_escaped wholeChunk sumOutput sumRows [] _ rfl rfl⟩

end Onprest.Agent
