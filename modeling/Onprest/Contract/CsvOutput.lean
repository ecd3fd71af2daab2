import Onprest.Contract.Binding
import Onprest.Lib.Utf8

/-! Generated CSV: the rows a capability publishes, the text of their cells, and the bytes of their records. -/

namespace Onprest.Contract
open Lib

/-! ### Records, as `encoding/csv` writes them -/

/-- `unicode.IsSpace`. -/
def isUnicodeSpace (c : Char) : Bool :=
  ['\t', '\n', '\x0b', '\x0c', '\r', ' ', '\u0085', '\u00a0',
    '\u1680', '\u2028', '\u2029', '\u202f', '\u205f', '\u3000'].contains c || '\u2000' ≤ c && c ≤ '\u200a'

/-- `Writer.fieldNeedsQuotes` with a comma. -/
def fieldNeedsQuotes (field : List Char) : Bool :=
  if field = [] then false
  else if field = ['\\', '.'] then true
  else field.any (['\n', '\r', '"', ','].contains ·) || field.head?.any isUnicodeSpace

/-- A field of a record, where needed in quotes and with its quotes doubled. -/
def fieldText (field : List Char) : List Char :=
  if fieldNeedsQuotes field then '"' :: field.flatMap (fun c => if c = '"' then ['"', '"'] else [c]) ++
    ['"'] else field

/-- The fields of a record with commas between them. -/
def fieldsText (fields : List (List Char)) : List Char := [','].intercalate (fields.map fieldText)

/-- `Writer.Write`. -/
def recordText (record : List (List Char)) : List Char := fieldsText record ++ ['\n']

/-! ### Terminators -/

/-- `csvTerminatorWriter` and what its destination has received; the last byte is held back. -/
structure TerminatorWriter where
  dest : Bytes
  last : Option UInt8 := none

/-- `csvTerminatorWriter.Write` to a destination that takes everything. -/
def TerminatorWriter.write (w : TerminatorWriter) (p : Bytes) : TerminatorWriter :=
  match p.getLast? with
  | none => w
  | some last => ⟨w.dest ++ w.last.toList ++ p.dropLast, some last⟩

/-- `csvTerminatorWriter.finish`. -/
def TerminatorWriter.finish (w : TerminatorWriter) : Except String Bytes :=
  if w.last = some '\n'.toUInt8 then .ok (w.dest ++ ['\r'.toUInt8, '\n'.toUInt8])
  else .error "CSV record termination is invalid"

/-- How the buffer of a `csv.Writer` cuts what it passes on. -/
structure Chunking where
  cut : Bytes → List Bytes
  flatten : ∀ bs, (cut bs).flatten = bs

/-- `writeRecord`. -/
def writeRecord (chunking : Chunking) (dest : Bytes) (record : List (List Char)) : Except String Bytes :=
  ((chunking.cut (encodeUtf8 (recordText record))).foldl TerminatorWriter.write ⟨dest, none⟩).finish

/-! ### Rows -/

/-- The part of a capability that `WriteCSV` reads: `from`, `columns` and `formula_escape` of its files, its output
schema, and whether its provider returns rows. -/
structure CsvOutput where
  source : String
  columns : Option (List String)
  formulaEscape : Bool
  schema : Schema
  rowProvider : Bool

/-- The loop of `outputPointer`. -/
def outputTokens (v : Value) : List (List Char) → Except String Value
  | [] => .ok v
  | raw :: raws => do
    let token ← unescapePointer raw
    match v with
    | .obj fs =>
      match Fields.get (String.ofList token) fs with
      | none => .error "CSV pointer is missing"
      | some x => outputTokens x raws
    | .arr xs =>
      if !canonicalIndex token then .error "invalid CSV array index"
      else
        match (parseUint63 token).bind (xs[·]?) with
        | none => .error "CSV array index is missing"
        | some x => outputTokens x raws
    | _ => .error "CSV pointer traverses a scalar"

def outputPointer (v : Value) (pointer : String) : Except String Value :=
  if pointer = "" then .ok v
  else if pointer.toList.head? ≠ some '/' then .error "invalid CSV pointer"
  else outputTokens v (pointerTokens pointer)

/-- A schema without constraints. -/
def freeSchema : Schema := .mk { nullable := true } [] none none

/-- The loop of `resolveOutputPointer`. -/
def resolveOutputTokens (cur : Schema) : List (List Char) → Except String Schema
  | [] => .ok cur
  | raw :: raws => do
    let key ← unescapePointer raw
    if cur.rules.types = [] then resolveOutputTokens freeSchema raws
    else if cur.rules.types.contains .object then
      match Fields.get (String.ofList key) cur.properties with
      | some child => resolveOutputTokens child raws
      | none =>
        if !cur.rules.additionalAllowed then .error "CSV from references excluded output property"
        else resolveOutputTokens (cur.additional.getD freeSchema) raws
    else if cur.rules.types.contains .array then
      if !canonicalIndex key || (JsonInteger.parseInt key).isNone then .error "invalid output array index"
      else resolveOutputTokens (cur.items.getD freeSchema) raws
    else .error "CSV from traverses known scalar"

def resolveOutputPointer (s : Schema) (pointer : String) : Except String Schema :=
  if pointer = "" then .ok s
  else if pointer.toList.head? ≠ some '/' then .error "output binding must be RFC6901 Pointer"
  else resolveOutputTokens s (pointerTokens pointer)

/-- The columns to publish: the configured ones, or those of the provider that the schema of a row declares. -/
def csvColumns (o : CsvOutput) (metadata : List String) : Except String (List String) :=
  match o.columns with
  | some columns => .ok columns
  | none => do
    let schema ← resolveOutputPointer o.schema o.source
    match schema.items with
    | some row =>
      if row.rules.types.contains .object && !row.rules.additionalAllowed then
        .ok (metadata.filter fun name => (Fields.get name row.properties).isSome)
      else .ok metadata
    | none => .ok metadata

/-- `validateColumns` of valid UTF-8. -/
def validateColumns (columns : List String) : Bool := columns.all (· ≠ "") && decide columns.Nodup

def escapeFormula (v : List Char) : List Char :=
  let leading := v.takeWhile isUnicodeSpace
  if leading.any (['\t', '\r'].contains ·) ||
    (v.dropWhile isUnicodeSpace).head?.any (['=', '+', '-', '@'].contains ·) then
    "'".toList ++ v
  else v

/-- `csvCell`; a missing member is nil. -/
def csvCell (v : Option Value) (escape : Bool) : Except String (List Char) :=
  match v with
  | none => .ok []
  | some .null => .ok []
  | some (.str s) => .ok (if escape then escapeFormula s.toList else s.toList)
  | some (.num (.text _)) => .error "CSV cell must be a JSON scalar"
  | some (.bool b) => (canonicalJSON (.bool b)).elim (.error "number must be finite") .ok
  | some (.num n) => (canonicalJSON (.num n)).elim (.error "number must be finite") .ok
  | some _ => .error "CSV cell must be a JSON scalar"

/-- The loop over the rows. -/
def writeRows (chunking : Chunking) (columns : List String) (escape : Bool) (dest : Bytes) :
    List Value → Except String Bytes
  | [] => .ok dest
  | .obj row :: rows => do
    let record ← columns.mapM fun name => csvCell (Fields.get name row) escape
    let dest ← writeRecord chunking dest record
    writeRows chunking columns escape dest rows
  | _ :: _ => .error "CSV elements must be nonnull objects"

/-- `WriteCSV` to a destination that takes everything: the bytes it has received, or the cause of the error. -/
def writeCSV (chunking : Chunking) (o : CsvOutput) (projected : Value) (metadata : List String) :
    Except String Bytes := do
  match ← outputPointer projected o.source with
  | .arr rows =>
    let columns ← csvColumns o metadata
    if columns = [] then .error "CSV requires at least one published column"
    else if !validateColumns columns then .error "invalid or duplicate provider column metadata"
    else if o.rowProvider && !columns.all metadata.contains then .error "CSV column is absent from provider metadata"
    else
      let header := columns.map fun name => if o.formulaEscape then escapeFormula name.toList else name.toList
      let dest ← writeRecord chunking [] header
      writeRows chunking columns o.formulaEscape dest rows
  | _ => .error "CSV from must select a nonnull object array"

/-! ### What is written -/

/-- However a nonempty text is cut, its last byte is held back and the rest is passed on. -/
theorem foldl_write (chunks : List Bytes) (w : TerminatorWriter) :
    (chunks.foldl TerminatorWriter.write w).dest ++ (chunks.foldl TerminatorWriter.write w).last.toList =
        w.dest ++ w.last.toList ++ chunks.flatten ∧
      (chunks.foldl TerminatorWriter.write w).last = chunks.flatten.getLast?.or w.last := by
  induction chunks generalizing w with
  | nil => simp
  | cons p chunks ih =>
    obtain ⟨hdest, hlast⟩ := ih (w.write p)
    rw [List.foldl_cons, hdest, hlast]
    cases hp : p.getLast? with
    | none =>
      rw [List.getLast?_eq_none_iff] at hp
      subst hp
      simp [TerminatorWriter.write]
    | some last =>
      have hsplit : p.dropLast ++ [last] = p := List.dropLast_append_getLast? last hp
      simp only [TerminatorWriter.write, hp, Option.toList_some]
      constructor
      · rw [List.flatten_cons, ← List.append_assoc, List.append_assoc _ p.dropLast, hsplit]
      · rw [List.flatten_cons, List.getLast?_append, hp]
        cases chunks.flatten.getLast? <;> rfl

theorem writeRecord_eq (chunking : Chunking) (dest : Bytes) (record : List (List Char)) :
    writeRecord chunking dest record = .ok (dest ++ encodeUtf8 (fieldsText record ++ ['\r', '\n'])) := by
  have htext : encodeUtf8 (recordText record) = encodeUtf8 (fieldsText record) ++ ['\n'.toUInt8] := by
    rw [recordText, encodeUtf8_append]
    rfl
  obtain ⟨hdest, hlast⟩ := foldl_write (chunking.cut (encodeUtf8 (recordText record))) ⟨dest, none⟩
  rw [writeRecord]
  generalize (chunking.cut (encodeUtf8 (recordText record))).foldl TerminatorWriter.write ⟨dest, none⟩ = w at *
  rw [chunking.flatten, htext] at hdest hlast
  rw [List.getLast?_concat, Option.some_or] at hlast
  rw [hlast, ← List.append_assoc, Option.toList_some, Option.toList_none, List.append_nil] at hdest
  rw [TerminatorWriter.finish, if_pos hlast, (List.append_inj' hdest rfl).1, encodeUtf8_append, List.append_assoc]
  rfl

/-- A cell of generated CSV that is a string, null, a boolean or an integer. -/
inductive PlainCell : Value → Prop
  | null : PlainCell .null
  | str (s : String) : PlainCell (.str s)
  | bool (b : Bool) : PlainCell (.bool b)
  | int64 (n : Int64) : PlainCell (.num (.int64 n))
  | int (n : Int64) : PlainCell (.num (.int n))

/-- The text of such a cell. -/
def cellText : Option Value → List Char
  | some (.str s) => s.toList
  | some (.bool true) => "true".toList
  | some (.bool false) => "false".toList
  | some (.num (.int64 n)) => (formatInt n).text
  | some (.num (.int n)) => (formatInt n).text
  | _ => []

theorem csvCell_plain {v : Option Value} (h : ∀ x ∈ v, PlainCell x) : csvCell v false = .ok (cellText v) := by
  cases v with
  | none => rfl
  | some v =>
    cases h v rfl with
    | null => rfl
    | str s => rfl
    | bool b => cases b <;> rfl
    | int64 n => rfl
    | int n => rfl

/-- A published row: the text of the cell of each column. -/
def rowCells (columns : List String) (row : List (String × Value)) : List (List Char) :=
  columns.map fun name => cellText (Fields.get name row)

/-- The text of some records with the line ends `WriteCSV` gives them. -/
def linesText (records : List (List (List Char))) : List Char :=
  records.flatMap fun record => fieldsText record ++ ['\r', '\n']

theorem linesText_cons (record : List (List Char)) (records : List (List (List Char))) :
    linesText (record :: records) = fieldsText record ++ ['\r', '\n'] ++ linesText records := rfl

variable {columns : List String} {rows : List (List (String × Value))}

theorem mapM_csvCell {row : List (String × Value)} (h : ∀ name ∈ columns, ∀ v ∈ Fields.get name row, PlainCell v) :
    columns.mapM (fun name => csvCell (Fields.get name row) false) = .ok (rowCells columns row) := by
  induction columns with
  | nil => rfl
  | cons name columns ih =>
    rw [List.forall_mem_cons] at h
    rw [List.mapM_cons, csvCell_plain h.1, ih h.2]
    rfl

theorem writeRows_eq (chunking : Chunking)
    (h : ∀ row ∈ rows, ∀ name ∈ columns, ∀ v ∈ Fields.get name row, PlainCell v) (dest : Bytes) :
    writeRows chunking columns false dest (rows.map .obj) =
      .ok (dest ++ encodeUtf8 (linesText (rows.map (rowCells columns)))) := by
  induction rows generalizing dest with
  | nil => simp [writeRows, linesText]
  | cons row rows ih =>
    rw [List.forall_mem_cons] at h
    rw [List.map_cons, writeRows, mapM_csvCell h.1]
    change (writeRecord chunking dest (rowCells columns row) >>= fun dest => _) = _
    rw [writeRecord_eq]
    change writeRows chunking columns false _ _ = _
    rw [ih h.2, List.map_cons, linesText_cons, encodeUtf8_append _ (linesText _), List.append_assoc]

theorem writeCSV_eq (chunking : Chunking) (o : CsvOutput) {projected : Value} {metadata : List String}
    (hescape : o.formulaEscape = false) (hrows : outputPointer projected o.source = .ok (.arr (rows.map .obj)))
    (hcolumns : csvColumns o metadata = .ok columns) (hne : columns ≠ []) (hvalid : validateColumns columns = true)
    (hmetadata : o.rowProvider = true → columns.all metadata.contains = true)
    (hcells : ∀ row ∈ rows, ∀ name ∈ columns, ∀ v ∈ Fields.get name row, PlainCell v) :
    writeCSV chunking o projected metadata =
      .ok (encodeUtf8 (linesText (columns.map String.toList :: rows.map (rowCells columns)))) := by
  have hknown : (o.rowProvider && !columns.all metadata.contains) = false := by
    cases hrow : o.rowProvider with
    | false => rfl
    | true => simp [hmetadata hrow]
  rw [writeCSV, hrows, hcolumns]
  change (if columns = [] then _ else _) = _
  rw [if_neg hne, hvalid, hknown, hescape]
  change (writeRecord chunking [] (columns.map String.toList) >>= fun dest => _) = _
  rw [writeRecord_eq, List.nil_append]
  change writeRows chunking columns false _ _ = _
  rw [writeRows_eq chunking hcells, linesText_cons, encodeUtf8_append _ (linesText _)]

end Onprest.Contract
