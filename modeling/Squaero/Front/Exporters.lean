import Squaero.Front.Csv
import Squaero.Front.EditSession
import Squaero.Front.QueryBuilder
import Squaero.Lib.JsNumber

/-!
# Exports in pieces

`frontend/src/utils/exporters.ts` writes a result as CSV, JSON, `INSERT` statements, XML or HTML: `exportResult`
in one text, `exportChunks` in pieces that a caller writes as it goes. Each format spells its rows once and its
opening, joins and ending for either.
-/

namespace Squaero.Front.Export

open Squaero.Lib

inductive Format
  | csv
  | json
  | sql
  | xml
  | html
  deriving DecidableEq, Repr

/-- A result as the grid holds it, rows of any length. -/
structure Result where
  columns : List ResultColumn
  rows : List (List Cell)

/-- `row[i] ?? null` for each column. -/
def cellsOf (cols : List ResultColumn) (row : List Cell) : List (ResultColumn × Cell) :=
  cols.zipIdx.map fun c ↦ (c.1, row[c.2]?.join)

/-! ## CSV -/

/-- `toCsv` without options. -/
def toCsv (result : Result) : Text :=
  let header := csvLine [','] (result.columns.map (·.name))
  let rows := result.rows.map fun row ↦
    csvLine [','] ((List.range result.columns.length).map (cellText [] row))
  "\r\n".toList.intercalate (header :: rows)

/-! ## JSON -/

/-- A key that a JavaScript object sorts by its number. -/
def isArrayIndex (key : Text) : Bool :=
  Nat.toDigits 10 (Json.natOfDigits key) = key && Json.natOfDigits key < 2 ^ 32 - 1

/-- `obj[key] = value`: a key stays where it came first, and `__proto__` is no property of the object's own. -/
def assign (props : List (Text × Cell)) (key : Text) (value : Cell) : List (Text × Cell) :=
  if key = "__proto__".toList then props
  else if props.any (·.1 = key) then props.map fun p ↦ if p.1 = key then (key, value) else p
  else props ++ [(key, value)]

/-- The properties in the order in which they are listed. -/
def ownProperties (props : List (Text × Cell)) : List (Text × Cell) :=
  (props.filter (isArrayIndex ·.1)).mergeSort (fun p q ↦ Json.natOfDigits p.1 ≤ Json.natOfDigits q.1) ++
    props.filter (!isArrayIndex ·.1)

def jsonRow (cols : List ResultColumn) (row : List Cell) : List (Text × Cell) :=
  ownProperties ((cellsOf cols row).foldl (fun props c ↦ assign props c.1.name c.2) [])

/-- The two spaces of `JSON.stringify(value, null, 2)`. -/
def jsonGap : Text := "  ".toList

/-- Members or elements between their brackets, each on a line of its own. -/
def jsonBlock (opening closing : Char) (indent : Text) (parts : List Text) : Text :=
  if parts = [] then [opening, closing]
  else
    opening :: '\n' :: (indent ++ jsonGap ++ (",\n".toList ++ (indent ++ jsonGap)).intercalate parts ++
      '\n' :: (indent ++ [closing]))

def jsonMember (p : Text × Cell) : Text :=
  Json.printString p.1 ++ ": ".toList ++ (p.2.elim "null".toList Json.printString)

def stringifyObject (props : List (Text × Cell)) (indent : Text) : Text :=
  jsonBlock '{' '}' indent (props.map jsonMember)

def stringifyArray (items : List (Text → Text)) (indent : Text) : Text :=
  jsonBlock '[' ']' indent (items.map fun item ↦ item (indent ++ jsonGap))

def toJson (result : Result) : Text :=
  stringifyArray (result.rows.map fun row ↦ stringifyObject (jsonRow result.columns row)) []

/-- Prefix every line of `text` with `pad`. -/
def indentBy (text pad : Text) : Text := ['\n'].intercalate ((text.splitOn '\n').map (pad ++ ·))

/-! ## SQL -/

/-- `value.replace(/c/g, text)` -/
def replaceChar (c : Char) (text : String) (value : Text) : Text :=
  value.flatMap fun d ↦ if d = c then text.toList else [d]

def quoteIdent (name : Text) : Text := '"' :: (doubleQuotes name ++ ['"'])

def sqlLiteral : Cell → Text
  | none => "NULL".toList
  | some value => '\'' :: (replaceChar '\'' "''" value ++ ['\''])

def insertHeader (cols : List ResultColumn) (table : Text) : Text :=
  let names := ", ".toList.intercalate (cols.map fun c ↦ quoteIdent c.name)
  "INSERT INTO ".toList ++ quoteIdent table ++ " (".toList ++ names ++ ") VALUES ".toList

def insertRow (header : Text) (cols : List ResultColumn) (row : List Cell) : Text :=
  let values := ", ".toList.intercalate ((cellsOf cols row).map fun c ↦ sqlLiteral c.2)
  header ++ '(' :: (values ++ ");".toList)

def toInserts (result : Result) (table : Text) : Text :=
  let header := insertHeader result.columns table
  ['\n'].intercalate (result.rows.map (insertRow header result.columns))

/-! ## XML and HTML -/

def xmlEscape (value : Text) : Text :=
  replaceChar '\'' "&apos;" (replaceChar '"' "&quot;" (replaceChar '>' "&gt;" (replaceChar '<' "&lt;"
    (replaceChar '&' "&amp;" value))))

def xmlField (c : ResultColumn × Cell) : Text :=
  let name := xmlEscape c.1.name
  match c.2 with
  | none => "    <field name=\"".toList ++ name ++ "\" null=\"true\"/>".toList
  | some v => "    <field name=\"".toList ++ name ++ "\">".toList ++ xmlEscape v ++ "</field>".toList

def xmlRow (cols : List ResultColumn) (row : List Cell) : Text :=
  let fields := ['\n'].intercalate ((cellsOf cols row).map xmlField)
  "  <row>\n".toList ++ fields ++ "\n  </row>".toList

def xmlHead : Text := "<?xml version=\"1.0\" encoding=\"UTF-8\"?>\n<data>\n".toList

def xmlTail : Text := "\n</data>\n".toList

def toXml (result : Result) : Text :=
  xmlHead ++ ['\n'].intercalate (result.rows.map (xmlRow result.columns)) ++ xmlTail

def htmlHead (cols : List ResultColumn) (table : Text) : Text :=
  let head := cols.flatMap fun c ↦ "<th>".toList ++ xmlEscape c.name ++ "</th>".toList
  let title := xmlEscape table
  "<!doctype html>\n<html lang=\"en\">\n<head>\n<meta charset=\"utf-8\">\n".toList ++
    "<title>".toList ++ title ++ "</title>\n<style>\n".toList ++
    "body\x7bfont-family:system-ui,sans-serif;margin:1rem;\x7d\n".toList ++
    "table\x7bborder-collapse:collapse;font-size:13px;\x7d\n".toList ++
    "th,td\x7bborder:1px solid #ccc;padding:4px 8px;text-align:left;\x7d\n".toList ++
    "th\x7bbackground:#f0f0f4;\x7d\ntd.num\x7btext-align:right;\x7d\ntd.null\x7bcolor:#999;\x7d\n".toList ++
    "</style>\n</head>\n<body>\n<table>\n<thead>\n<tr>".toList ++ head ++ "</tr>\n</thead>\n".toList ++
    "<tbody>\n".toList

def htmlCell (c : ResultColumn × Cell) : Text :=
  match c.2 with
  | none => "<td class=\"null\"></td>".toList
  | some v =>
    "<td".toList ++ (if isNumberType c.1.type then " class=\"num\"".toList else []) ++ '>' ::
      (xmlEscape v ++ "</td>".toList)

def htmlRow (cols : List ResultColumn) (row : List Cell) : Text :=
  "      <tr>".toList ++ (cellsOf cols row).flatMap htmlCell ++ "</tr>".toList

def htmlTail : Text := "\n</tbody>\n</table>\n</body>\n</html>\n".toList

def toHtml (result : Result) (table : Text) : Text :=
  htmlHead result.columns table ++ ['\n'].intercalate (result.rows.map (htmlRow result.columns)) ++ htmlTail

/-! ## Whole and in pieces -/

def exportResult (result : Result) (format : Format) (table : Text) : Text :=
  match format with
  | .csv => toCsv result
  | .json => toJson result
  | .sql => toInserts result table
  | .xml => toXml result
  | .html => toHtml result table

/-- `chunkPlan` with the default options of CSV, whose plan reads nothing but the names of the columns. -/
def chunkPlan (result : Result) (format : Format) (table : Text) : ChunkPlan :=
  let cols := result.columns
  match format with
  | .csv => csvPlan { columns := cols.map (·.name), rows := [], width := nofun } {}
  | .json =>
    { head := ['[']
      firstSep := ['\n']
      sep := ",\n".toList
      row := fun row _ ↦ indentBy (stringifyObject (jsonRow cols row) []) "  ".toList
      tail := "\n]".toList
      emptyTail := [']'] }
  | .sql =>
    let header := insertHeader cols table
    { head := []
      firstSep := []
      sep := ['\n']
      row := fun row _ ↦ insertRow header cols row
      tail := []
      emptyTail := [] }
  | .xml =>
    { head := xmlHead
      firstSep := []
      sep := ['\n']
      row := fun row _ ↦ xmlRow cols row
      tail := xmlTail
      emptyTail := xmlTail }
  | .html =>
    { head := htmlHead cols table
      firstSep := []
      sep := ['\n']
      row := fun row _ ↦ htmlRow cols row
      tail := htmlTail
      emptyTail := htmlTail }

/-- The loop of `exportChunks`, a size of `Math.max(1, Math.floor(rowsPerChunk))` at a time. -/
def chunkPieces (plan : ChunkPlan) (rows : List (List Cell)) : JsNum → List Text
  | .finite negative m =>
    exportPieces plan rows (max 1 ⌊if negative then -m.value else m.value⌋.toNat) (by omega) 0
  | .infinite true => exportPieces plan rows 1 Nat.one_pos 0
  | .infinite false => if rows = [] then [] else [rows.zipIdx.flatMap plan.rowText]
  -- no row is below `NaN`, so the first piece is empty, and the next would start at `NaN`
  | .nan => if rows = [] then [] else [[]]

def exportChunks (result : Result) (format : Format) (table : Text) (rowsPerChunk : JsNum) : List Text :=
  let plan := chunkPlan result format table
  plan.head :: chunkPieces plan result.rows rowsPerChunk ++
    [if 0 < result.rows.length then plan.tail else plan.emptyTail]

/-! ## Pieces -/

theorem chunkPieces_flatten (plan : ChunkPlan) (rows : List (List Cell)) {n : JsNum} (hn : n ≠ .nan) :
    (chunkPieces plan rows n).flatten = rows.zipIdx.flatMap plan.rowText := by
  cases n with
  | finite negative m => rw [chunkPieces, exportPieces_flatten, List.drop_zero]
  | infinite negative =>
    cases negative with
    | true => rw [chunkPieces, exportPieces_flatten, List.drop_zero]
    | false =>
      rw [chunkPieces]
      split_ifs with hrows
      · rw [hrows]
        rfl
      · exact List.flatten_singleton
  | nan => exact absurd rfl hn

theorem intercalate_cons_eq {α : Type*} (sep first : List α) (more : List (List α)) :
    sep.intercalate (first :: more) = first ++ more.flatMap (sep ++ ·) := by
  induction more generalizing first with
  | nil => simp
  | cons next more ih => rw [List.intercalate_cons_cons, ih, List.flatMap_cons, List.append_assoc, List.append_assoc]

/-- The rows with their separators, where a plan does not ask for a row's number. -/
theorem flatMap_rowText {plan : ChunkPlan} {write : List Cell → Text} (hplan : ∀ row i, plan.row row i = write row)
    (rows : List (List Cell)) : rows.zipIdx.flatMap plan.rowText =
      if rows = [] then [] else plan.firstSep ++ plan.sep.intercalate (rows.map write) := by
  have hrest : ∀ (rows : List (List Cell)) (i : ℕ), (rows.zipIdx (i + 1)).flatMap plan.rowText =
      (rows.map write).flatMap (plan.sep ++ ·) := by
    intro rows
    induction rows with
    | nil => intro i; rfl
    | cons row rows ih =>
      intro i
      rw [List.zipIdx_cons, List.map_cons, List.flatMap_cons, List.flatMap_cons, ih]
      simp [ChunkPlan.rowText, hplan]
  cases rows with
  | nil => rfl
  | cons row rows =>
    rw [if_neg (List.cons_ne_nil _ _), List.zipIdx_cons, List.flatMap_cons, hrest, List.map_cons, intercalate_cons_eq]
    simp [ChunkPlan.rowText, hplan]

/-! ## Indented objects -/

/-- `pad` behind every newline. -/
def padLines (pad text : Text) : Text := text.flatMap fun c ↦ if c = '\n' then '\n' :: pad else [c]

theorem padLines_append (pad text more : Text) : padLines pad (text ++ more) = padLines pad text ++ padLines pad more :=
  List.flatMap_append

theorem padLines_cons (pad : Text) (c : Char) (text : Text) :
    padLines pad (c :: text) = (if c = '\n' then '\n' :: pad else [c]) ++ padLines pad text :=
  List.flatMap_cons

theorem padLines_of_not_mem {pad text : Text} (h : '\n' ∉ text) : padLines pad text = text := by
  induction text with
  | nil => rfl
  | cons c text ih =>
    rw [List.mem_cons, not_or] at h
    rw [padLines_cons, if_neg (Ne.symm h.1), ih h.2]
    rfl

theorem indentBy_eq (text pad : Text) : indentBy text pad = pad ++ padLines pad text := by
  unfold indentBy
  induction text with
  | nil => simp [padLines]
  | cons c text ih =>
    obtain ⟨first, more, hsplit⟩ := List.exists_cons_of_ne_nil (List.splitOn_ne_nil '\n' text)
    rw [hsplit, List.map_cons, intercalate_cons_eq, List.append_assoc] at ih
    have hsame := List.append_cancel_left ih
    rw [List.splitOn_cons_eq_if_modifyHead, hsplit, padLines_cons, ← hsame]
    by_cases hc : c = '\n'
    · simp [hc, intercalate_cons_eq]
    · simp [hc, intercalate_cons_eq]

theorem newline_not_mem_printString (s : Text) : '\n' ∉ Json.printString s := by
  have hescape (c : Char) : '\n' ∉ Json.escape c := by
    have hdigits : ∀ n < 32, '\n' ≠ (n / 16).digitChar ∧ '\n' ≠ (n % 16).digitChar := by decide
    unfold Json.escape
    split_ifs with hself hb hf hn hr ht hcontrol
    · obtain rfl | rfl := hself <;> decide
    · decide
    · decide
    · decide
    · decide
    · decide
    · simp [hdigits c.toNat hcontrol]
    · simpa using Ne.symm hn
  unfold Json.printString
  simp [hescape]

theorem newline_not_mem_jsonMember (p : Text × Cell) : '\n' ∉ jsonMember p := by
  unfold jsonMember
  cases p.2 with
  | none => simp [newline_not_mem_printString]
  | some value => simp [newline_not_mem_printString]

theorem padLines_intercalate (pad sep : Text) (parts : List Text) :
    padLines pad (sep.intercalate parts) = (padLines pad sep).intercalate (parts.map (padLines pad)) := by
  cases parts with
  | nil => rfl
  | cons first more =>
    rw [List.map_cons, intercalate_cons_eq, intercalate_cons_eq, padLines_append]
    congr 1
    induction more with
    | nil => rfl
    | cons next more ih =>
      rw [List.flatMap_cons, List.map_cons, List.flatMap_cons, padLines_append, padLines_append, ih]

/-- An object that is moved to the right as text is the object as it stands in an array. -/
theorem indentBy_stringifyObject (props : List (Text × Cell)) (pad : Text) :
    indentBy (stringifyObject props []) pad = pad ++ stringifyObject props pad := by
  have hmembers : (props.map jsonMember).map (padLines pad) = props.map jsonMember := by
    rw [List.map_map]
    exact List.map_congr_left fun p _ ↦ padLines_of_not_mem (newline_not_mem_jsonMember p)
  have hgap : padLines pad jsonGap = jsonGap := padLines_of_not_mem (by decide)
  have hsep : padLines pad (",\n".toList ++ ([] ++ jsonGap)) = ",\n".toList ++ (pad ++ jsonGap) := by
    have hnewline : padLines pad ",\n".toList = ",\n".toList ++ pad := by simp [padLines]
    rw [padLines_append, hnewline, List.nil_append, hgap, List.append_assoc]
  rw [indentBy_eq]
  unfold stringifyObject jsonBlock
  split_ifs with hempty
  · rw [padLines_of_not_mem (by decide)]
  · simp only [padLines_cons, padLines_append, padLines_intercalate, hmembers, hsep, hgap]
    simp [padLines]

/-! ## The file -/

/-- The rows between the opening and the ending of a plan. -/
def rowsText (plan : ChunkPlan) (write : List Cell → Text) (rows : List (List Cell)) : Text :=
  if rows = [] then [] else plan.firstSep ++ plan.sep.intercalate (rows.map write)

/-- A plan writes each row as `write` does and all of them as `whole`, none as nothing. -/
structure Writes (plan : ChunkPlan) (rows : List (List Cell)) (write : List Cell → Text) (whole : Text) : Prop where
  row : ∀ row i, plan.row row i = write row
  whole : whole = plan.head ++ rowsText plan write rows ++ if 0 < rows.length then plan.tail else plan.emptyTail
  ne_nil : ∀ row, plan.firstSep ++ write row ≠ []

theorem writes_csv (result : Result) (table : Text) : Writes (chunkPlan result .csv table) result.rows
    (fun row ↦ csvLine [','] ((List.range result.columns.length).map (cellText [] row))) (toCsv result) where
  row row i := by
    change csvLine [','] ((List.range (result.columns.map (·.name)).length).map (cellText [] row)) = _
    rw [List.length_map]
  whole := by
    have hplan : chunkPlan result .csv table =
        csvPlan { columns := result.columns.map (·.name), rows := [], width := nofun } {} := rfl
    rw [hplan]
    unfold toCsv rowsText csvPlan
    cases result.rows with
    | nil => simp
    | cons row rows => simp [intercalate_cons_eq]
  ne_nil row := List.cons_ne_nil _ _

theorem writes_json (result : Result) (table : Text) : Writes (chunkPlan result .json table) result.rows
    (fun row ↦ jsonGap ++ stringifyObject (jsonRow result.columns row) jsonGap) (toJson result) where
  row row i := indentBy_stringifyObject (jsonRow result.columns row) jsonGap
  whole := by
    unfold toJson stringifyArray jsonBlock rowsText chunkPlan
    cases result.rows with
    | nil => rfl
    | cons row rows =>
      simp only [List.map_cons, List.cons_ne_nil, if_false, List.map_map, List.nil_append, intercalate_cons_eq,
        List.length_cons, Nat.zero_lt_succ, if_true, List.flatMap_map, Function.comp_def]
      simp
  ne_nil row := List.cons_ne_nil _ _

theorem writes_sql (result : Result) (table : Text) : Writes (chunkPlan result .sql table) result.rows
    (insertRow (insertHeader result.columns table) result.columns) (toInserts result table) where
  row row i := rfl
  whole := by
    unfold toInserts rowsText chunkPlan
    cases result.rows with
    | nil => rfl
    | cons row rows => simp
  ne_nil row := by
    change insertRow _ _ _ ≠ []
    unfold insertRow
    simp

theorem writes_xml (result : Result) (table : Text) : Writes (chunkPlan result .xml table) result.rows
    (xmlRow result.columns) (toXml result) where
  row row i := rfl
  whole := by
    unfold toXml rowsText chunkPlan
    cases result.rows with
    | nil => rfl
    | cons row rows => simp
  ne_nil row := by
    change xmlRow _ _ ≠ []
    unfold xmlRow
    simp

theorem writes_html (result : Result) (table : Text) : Writes (chunkPlan result .html table) result.rows
    (htmlRow result.columns) (toHtml result table) where
  row row i := rfl
  whole := by
    unfold toHtml rowsText chunkPlan
    cases result.rows with
    | nil => rfl
    | cons row rows => simp
  ne_nil row := by
    change htmlRow _ _ ≠ []
    unfold htmlRow
    simp

theorem writes_chunkPlan (result : Result) (format : Format) (table : Text) : ∃ write,
    Writes (chunkPlan result format table) result.rows write (exportResult result format table) := by
  cases format with
  | csv => exact ⟨_, writes_csv result table⟩
  | json => exact ⟨_, writes_json result table⟩
  | sql => exact ⟨_, writes_sql result table⟩
  | xml => exact ⟨_, writes_xml result table⟩
  | html => exact ⟨_, writes_html result table⟩

theorem exportChunks_eq (result : Result) (format : Format) (table : Text) (n : JsNum) :
    (exportChunks result format table n).flatten =
      (chunkPlan result format table).head ++
        (chunkPieces (chunkPlan result format table) result.rows n).flatten ++
        if 0 < result.rows.length then (chunkPlan result format table).tail
        else (chunkPlan result format table).emptyTail := by
  unfold exportChunks
  simp

/-- The pieces are the file, unless their size is no number and there are rows. -/
theorem exportChunks_flatten_iff (result : Result) (format : Format) (table : Text) (rowsPerChunk : JsNum) :
    (exportChunks result format table rowsPerChunk).flatten = exportResult result format table ↔
      rowsPerChunk ≠ .nan ∨ result.rows = [] := by
  obtain ⟨write, hwrites⟩ := writes_chunkPlan result format table
  rw [exportChunks_eq, hwrites.whole, List.append_left_inj, List.append_right_inj]
  by_cases hn : rowsPerChunk = .nan
  · rw [hn]
    unfold chunkPieces rowsText
    cases result.rows with
    | nil => simp
    | cons row rows =>
      have hfirst := hwrites.ne_nil row
      refine iff_of_false (fun hsame ↦ hfirst ?_) (by simp)
      rw [if_neg (List.cons_ne_nil _ _), if_neg (List.cons_ne_nil _ _), List.map_cons, intercalate_cons_eq,
        ← List.append_assoc] at hsame
      exact (List.append_eq_nil_iff.mp hsame.symm).1
  · rw [chunkPieces_flatten _ _ hn, flatMap_rowText hwrites.row]
    exact iff_of_true rfl (.inl hn)

/-- Of a size that is no number the file has its opening and its ending only. -/
theorem exportChunks_nan : ¬ ∀ (result : Result) (format : Format) (table : Text) (rowsPerChunk : JsNum),
    (exportChunks result format table rowsPerChunk).flatten = exportResult result format table := by
  intro h
  have hone := h ⟨[⟨['n'], "int".toList⟩], [[some ['1']]]⟩ .csv "t".toList .nan
  have hlost : (exportChunks ⟨[⟨['n'], "int".toList⟩], [[some ['1']]]⟩ .csv "t".toList .nan).flatten = ['n'] := by
    decide
  have hwhole : exportResult ⟨[⟨['n'], "int".toList⟩], [[some ['1']]]⟩ .csv "t".toList = "n\r\n1".toList := by
    decide
  rw [hlost, hwhole] at hone
  exact absurd hone (by decide)

end Squaero.Front.Export
