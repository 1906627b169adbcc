import Squaero.Front.Import
import Mathlib.Data.Rat.Floor
import Mathlib.Data.List.Infix

/-!
# CSV out and in

`exportChunks` of `frontend/src/utils/exporters.ts` writes a result set as CSV in pieces, and `parseCsv`
of `importers.ts` reads such a file. What is read back is what was written, up to a last record that is
one empty field: the parser takes it for the newline that ends the file.
-/

namespace Squaero.Front

open Squaero.Lib

/-! ## Writing -/

/-- The names of the columns, and rows with one cell for each. -/
structure ResultSet where
  columns : List Text
  rows : List (List Cell)
  width : ∀ row ∈ rows, row.length = columns.length

structure CsvOptions where
  delimiter : Text := []
  header : Bool := true
  nullText : Text := []
  bom : Bool := false

/-- `value.replace(/"/g, '""')`. -/
def doubleQuotes (value : Text) : Text :=
  value.flatMap fun c ↦ if c = '"' then ['"', '"'] else [c]

def csvField (value delimiter : Text) : Text :=
  if delimiter <:+: value ∨ '"' ∈ value ∨ '\n' ∈ value ∨ '\r' ∈ value then
    '"' :: doubleQuotes value ++ ['"']
  else value

/-- How one format spells its opening, each row, the joins, and its ending. -/
structure ChunkPlan where
  head : Text
  firstSep : Text
  sep : Text
  row : List Cell → ℕ → Text
  tail : Text
  emptyTail : Text

def csvLine (delimiter : Text) (cells : List Text) : Text :=
  delimiter.intercalate (cells.map (csvField · delimiter))

/-- `row[i] ?? nullText`. -/
def cellText (nullText : Text) (row : List Cell) (i : ℕ) : Text := row[i]?.join.getD nullText

/-- The "csv" case of `chunkPlan`. -/
def csvPlan (result : ResultSet) (csv : CsvOptions) : ChunkPlan :=
  let d := if csv.delimiter = [] then [','] else csv.delimiter
  { head := (if csv.bom then ['\uFEFF'] else []) ++
      (if csv.header then csvLine d result.columns else [])
    firstSep := if csv.header then ['\r', '\n'] else []
    sep := ['\r', '\n']
    row := fun row _ ↦
      csvLine d ((List.range result.columns.length).map (cellText csv.nullText row))
    tail := []
    emptyTail := [] }

/-- A row of the file behind the separator that goes before it. -/
def ChunkPlan.rowText (plan : ChunkPlan) (row : List Cell × ℕ) : Text :=
  (if row.2 = 0 then plan.firstSep else plan.sep) ++ plan.row row.1 row.2

/-- The loop of `exportChunks` from the row `start` on. -/
def exportPieces (plan : ChunkPlan) (rows : List (List Cell)) (size : ℕ) (hsize : 0 < size)
    (start : ℕ) : List Text :=
  if start < rows.length then
    let stop := min rows.length (start + size)
    ((rows.zipIdx.take stop).drop start).flatMap plan.rowText ::
      exportPieces plan rows size hsize (start + size)
  else []
  termination_by rows.length - start

def exportChunks (result : ResultSet) (plan : ChunkPlan) (rowsPerChunk : ℚ) : List Text :=
  let size := max 1 ⌊rowsPerChunk⌋.toNat
  plan.head :: exportPieces plan result.rows size (by omega) 0 ++
    [if 0 < result.rows.length then plan.tail else plan.emptyTail]

theorem exportPieces_flatten (plan : ChunkPlan) (rows : List (List Cell)) (size : ℕ)
    (hsize : 0 < size) (start : ℕ) :
    (exportPieces plan rows size hsize start).flatten =
      (rows.zipIdx.drop start).flatMap plan.rowText := by
  induction start using exportPieces.induct rows size hsize with
  | case1 start hlt ih =>
    have hcut : rows.zipIdx.take (min rows.length (start + size)) =
        rows.zipIdx.take (start + size) := by
      rw [List.take_eq_take_min (i := start + size), List.length_zipIdx, min_comm]
    have hstart : start ≤ (rows.zipIdx.take (start + size)).length := by
      rw [List.length_take, List.length_zipIdx]
      omega
    unfold exportPieces
    rw [if_pos hlt, List.flatten_cons, ih, hcut, ← List.flatMap_append,
      ← List.drop_append_of_le_length hstart, List.take_append_drop]
  | case2 start hge =>
    have hdrop : rows.zipIdx.drop start = [] := by
      apply List.drop_eq_nil_of_le
      simpa using hge
    unfold exportPieces
    rw [if_neg hge, hdrop]
    rfl

/-- The whole file does not depend on where it is cut. -/
theorem exportChunks_flatten (result : ResultSet) (plan : ChunkPlan) (rowsPerChunk : ℚ) :
    (exportChunks result plan rowsPerChunk).flatten =
      plan.head ++ result.rows.zipIdx.flatMap plan.rowText ++
        (if 0 < result.rows.length then plan.tail else plan.emptyTail) := by
  unfold exportChunks
  simp [exportPieces_flatten]

/-! ## Reading -/

/-- The variables of the loop of `parseCsv`. -/
structure CsvState where
  records : List (List Text)
  field : Text
  row : List Text
  inQuotes : Bool
  started : Bool
  deriving DecidableEq, Repr

def CsvState.endField (s : CsvState) : CsvState := { s with row := s.row ++ [s.field], field := [] }

def CsvState.endRecord (s : CsvState) : CsvState :=
  { s with records := s.records ++ [s.row ++ [s.field]], field := [], row := [], started := false }

section

variable (delimiter quote : Text)

/-- A character that is not the first of a doubled quote. A lone CR before LF doesn't start a row. -/
def csvChar (s : CsvState) (ch : Char) : CsvState :=
  let s := { s with started := s.started || ch ≠ '\r' }
  if s.inQuotes then
    if [ch] = quote then { s with inQuotes := false } else { s with field := s.field ++ [ch] }
  else if [ch] = quote then { s with inQuotes := true }
  else if [ch] = delimiter then s.endField
  else if ch = '\n' then s.endRecord
  else if ch = '\r' then s
  else { s with field := s.field ++ [ch] }

/-- The loop of `parseCsv` over the rest of the text. -/
def csvLoop (s : CsvState) : Text → CsvState
  | [] => s
  | [ch] => csvChar delimiter quote s ch
  | ch :: next :: rest =>
    if s.inQuotes ∧ [ch] = quote ∧ [next] = quote then
      csvLoop { s with started := s.started || ch ≠ '\r', field := s.field ++ quote } rest
    else csvLoop (csvChar delimiter quote s ch) (next :: rest)

/-- Flush a final record unless the input ended exactly on a record boundary. -/
def CsvState.flush (s : CsvState) : CsvState :=
  if s.started ∨ s.field ≠ [] ∨ s.row ≠ [] then s.endRecord else s

/-- `#1`, `#2`, …: the names of the columns of a file without a header row. -/
def positionalHeaders (n : ℕ) : List Text :=
  (List.range n).map fun i ↦ '#' :: (toString (i + 1)).toList

def parsedTable (header : Bool) (records : List (List Text)) : ParsedTable :=
  let cells : List (List Text) → List (List Cell) := List.map (List.map some)
  match records with
  | [] => { headers := [], rows := [] }
  | headers :: rows =>
    if header then { headers := headers, rows := cells rows }
    else
      let width := (records.map List.length).foldr max 0
      { headers := positionalHeaders width, rows := cells records }

def parseCsv (text : Text) (header : Bool) : ParsedTable :=
  parsedTable header (csvLoop delimiter quote ⟨[], [], [], false, false⟩ text).flush.records

end

/-! ## The round trip -/

/-- A delimiter that is neither the quote nor part of a line ending. -/
structure Delimits (d : Char) : Prop where
  quote : d ≠ '"'
  cr : d ≠ '\r'
  lf : d ≠ '\n'

/-- A character that stands for itself in a field without quotes. -/
structure Plain (d c : Char) : Prop where
  quote : c ≠ '"'
  delimiter : c ≠ d
  cr : c ≠ '\r'
  lf : c ≠ '\n'

section

variable {d : Char}

/-- Only a quote in a quoted field looks at the character behind it. -/
theorem csvLoop_cons (s : CsvState) (ch : Char) (rest : Text)
    (hnext : s.inQuotes = true → ch = '"' → rest.head? ≠ some '"') :
    csvLoop [d] ['"'] s (ch :: rest) = csvLoop [d] ['"'] (csvChar [d] ['"'] s ch) rest := by
  cases rest with
  | nil => rfl
  | cons next rest =>
    have hsingle : ¬ (s.inQuotes = true ∧ [ch] = ['"'] ∧ [next] = ['"']) := by
      rintro ⟨hq, hch, hn⟩
      exact hnext hq (by simpa using hch) (by simpa using hn)
    rw [csvLoop, if_neg hsingle]

theorem csvLoop_doubled (s : CsvState) (rest : Text) (hq : s.inQuotes = true)
    (hs : s.started = true) :
    csvLoop [d] ['"'] s ('"' :: '"' :: rest) =
      csvLoop [d] ['"'] { s with field := s.field ++ ['"'] } rest := by
  rw [csvLoop]
  simp [hq, ← hs]

theorem csvLoop_plain (value rest : Text) (s : CsvState) (hq : s.inQuotes = false)
    (hplain : ∀ c ∈ value, Plain d c) :
    csvLoop [d] ['"'] s (value ++ rest) =
      csvLoop [d] ['"']
        { s with field := s.field ++ value, started := s.started || value ≠ [] } rest := by
  induction value generalizing s with
  | nil => simp
  | cons c value ih =>
    have hc := hplain c (.head _)
    have hchar : csvChar [d] ['"'] s c = { s with field := s.field ++ [c], started := true } := by
      unfold csvChar
      simp [hq, hc.quote, hc.delimiter, hc.cr, hc.lf]
    have htail := ih { s with field := s.field ++ [c], started := true } hq
      fun c hc ↦ hplain c (.tail _ hc)
    rw [List.cons_append, csvLoop_cons s c _ (by simp [hq]), hchar, htail]
    simp

theorem csvLoop_quoted (value rest : Text) (s : CsvState) (hq : s.inQuotes = true)
    (hs : s.started = true) (hrest : rest.head? ≠ some '"') :
    csvLoop [d] ['"'] s (doubleQuotes value ++ '"' :: rest) =
      csvLoop [d] ['"'] { s with field := s.field ++ value, inQuotes := false } rest := by
  induction value generalizing s with
  | nil =>
    have hchar : csvChar [d] ['"'] s '"' = { s with inQuotes := false } := by
      unfold csvChar
      simp [hq, ← hs]
    rw [show doubleQuotes [] = [] from rfl, List.nil_append, csvLoop_cons s '"' rest fun _ _ ↦ hrest,
      hchar, List.append_nil]
  | cons c value ih =>
    by_cases hc : c = '"'
    · subst hc
      have hdouble : doubleQuotes ('"' :: value) = '"' :: '"' :: doubleQuotes value := rfl
      have htail := ih { s with field := s.field ++ ['"'] } hq hs
      rw [hdouble, List.cons_append, List.cons_append, csvLoop_doubled s _ hq hs, htail]
      simp
    · have hdouble : doubleQuotes (c :: value) = c :: doubleQuotes value := by
        simp [doubleQuotes, hc]
      have hchar : csvChar [d] ['"'] s c = { s with field := s.field ++ [c] } := by
        unfold csvChar
        simp [hq, hc, ← hs]
      have htail := ih { s with field := s.field ++ [c] } hq hs
      rw [hdouble, List.cons_append, csvLoop_cons s c _ fun _ h ↦ absurd h hc, hchar, htail]
      simp

/-- A field read back, quoted or not, up to the delimiter or the line ending behind it. -/
theorem csvLoop_field (records : List (List Text)) (row : List Text) (started : Bool)
    (value rest : Text) (hrest : rest.head? ≠ some '"') :
    csvLoop [d] ['"'] ⟨records, [], row, false, started⟩ (csvField value [d] ++ rest) =
      csvLoop [d] ['"'] ⟨records, value, row, false, started || value ≠ []⟩ rest := by
  unfold csvField
  split_ifs with hspecial
  · have hvalue : value ≠ [] := by
      rintro rfl
      simp at hspecial
    have hopen : csvChar [d] ['"'] ⟨records, [], row, false, started⟩ '"' =
        ⟨records, [], row, true, true⟩ := by
      simp [csvChar]
    rw [List.cons_append, List.cons_append, List.append_assoc, List.singleton_append,
      csvLoop_cons _ _ _ (by simp), hopen, csvLoop_quoted _ _ _ rfl rfl hrest]
    simp [hvalue]
  · have hplain : ∀ c ∈ value, Plain d c := by
      intro c hc
      simp only [not_or] at hspecial
      obtain ⟨hd, hquote, hlf, hcr⟩ := hspecial
      exact ⟨fun h ↦ hquote (h ▸ hc), fun h ↦ hd (by rwa [← h, List.singleton_infix_iff]),
        fun h ↦ hcr (h ▸ hc), fun h ↦ hlf (h ▸ hc)⟩
    rw [csvLoop_plain value rest _ rfl hplain, List.nil_append]

/-- A line read back: its last field is not closed yet, since what closes it is behind the line. -/
theorem csvLoop_line (hd : Delimits d) (records : List (List Text)) (row : List Text)
    (started : Bool) (cell : Text) (cells : List Text) (rest : Text)
    (hrest : rest.head? ≠ some '"') :
    csvLoop [d] ['"'] ⟨records, [], row, false, started⟩ (csvLine [d] (cell :: cells) ++ rest) =
      csvLoop [d] ['"']
        ⟨records, (cell :: cells).getLast (by simp), row ++ (cell :: cells).dropLast, false,
          started || cell :: cells ≠ [[]]⟩ rest := by
  induction cells generalizing cell row started with
  | nil =>
    have hline : csvLine [d] [cell] = csvField cell [d] := List.intercalate_singleton
    rw [hline, csvLoop_field records row started cell rest hrest]
    simp
  | cons next cells ih =>
    have hline : csvLine [d] (cell :: next :: cells) =
        csvField cell [d] ++ d :: csvLine [d] (next :: cells) := by
      unfold csvLine
      simp [List.intercalate_cons_cons]
    have hhead : (d :: (csvLine [d] (next :: cells) ++ rest)).head? ≠ some '"' := by
      simpa using hd.quote
    have hdelimiter : csvChar [d] ['"'] ⟨records, cell, row, false, started || cell ≠ []⟩ d =
        ⟨records, [], row ++ [cell], false, true⟩ := by
      simp [csvChar, CsvState.endField, hd.quote, hd.cr]
    rw [hline, List.append_assoc, List.cons_append, csvLoop_field _ _ _ _ _ hhead,
      csvLoop_cons _ _ _ (by simp), hdelimiter, ih]
    simp

/-- The line ending that `exportChunks` writes closes the record. -/
theorem csvLoop_crlf (hd : Delimits d) (records : List (List Text)) (field : Text) (row : List Text)
    (started : Bool) (rest : Text) :
    csvLoop [d] ['"'] ⟨records, field, row, false, started⟩ ('\r' :: '\n' :: rest) =
      csvLoop [d] ['"'] ⟨records ++ [row ++ [field]], [], [], false, false⟩ rest := by
  have hcr : csvChar [d] ['"'] ⟨records, field, row, false, started⟩ '\r' =
      ⟨records, field, row, false, started⟩ := by
    simp [csvChar, hd.cr.symm]
  have hlf : csvChar [d] ['"'] ⟨records, field, row, false, started⟩ '\n' =
      ⟨records ++ [row ++ [field]], [], [], false, false⟩ := by
    simp [csvChar, CsvState.endRecord, hd.lf.symm]
  rw [csvLoop_cons _ _ _ (by simp), hcr, csvLoop_cons _ _ _ (by simp), hlf]

/-- The records a file is read as. A last one that is one empty field is the file's final newline. -/
def withoutBlankEnd (records : List (List Text)) : List (List Text) :=
  if records.getLast? = some [[]] then records.dropLast else records

theorem flush_records (records : List (List Text)) (cells : List Text) (hcells : cells ≠ []) :
    CsvState.records (CsvState.flush
      ⟨records, cells.getLast hcells, cells.dropLast, false, decide (cells ≠ [[]])⟩) =
      withoutBlankEnd (records ++ [cells]) := by
  unfold CsvState.flush withoutBlankEnd
  by_cases hblank : cells = [[]]
  · subst hblank
    simp
  · simp [hblank, CsvState.endRecord, List.dropLast_append_getLast]

theorem csvLoop_records (hd : Delimits d) (records : List (List Text)) (cells : List Text)
    (more : List (List Text)) (hwidth : ∀ cells' ∈ cells :: more, cells' ≠ []) :
    (csvLoop [d] ['"'] ⟨records, [], [], false, false⟩
      (csvLine [d] cells ++ more.flatMap fun cells ↦ '\r' :: '\n' :: csvLine [d] cells)).flush.records =
      withoutBlankEnd (records ++ cells :: more) := by
  have hcells := hwidth cells (.head _)
  obtain ⟨cell, cells, rfl⟩ := List.exists_cons_of_ne_nil hcells
  induction more generalizing records cell cells with
  | nil =>
    rw [List.flatMap_nil, csvLoop_line hd _ _ _ _ _ _ (by simp)]
    exact flush_records records (cell :: cells) hcells
  | cons line more ih =>
    have hline := hwidth line (.tail _ (.head _))
    have hmore : ∀ cells' ∈ line :: more, cells' ≠ [] := fun cells' h ↦ hwidth cells' (.tail _ h)
    obtain ⟨first, line, rfl⟩ := List.exists_cons_of_ne_nil hline
    rw [List.flatMap_cons, List.cons_append, List.cons_append, csvLoop_line hd _ _ _ _ _ _ (by simp),
      csvLoop_crlf hd, List.nil_append, List.dropLast_append_getLast,
      ih _ first line hmore hline]
    simp

/-- The cells of a result set as texts, under the names of its columns. -/
def ResultSet.records (result : ResultSet) (nullText : Text) : List (List Text) :=
  result.columns :: result.rows.map (List.map (·.getD nullText))

theorem cellText_row {nullText : Text} (row : List Cell) :
    (List.range row.length).map (cellText nullText row) = row.map (·.getD nullText) := by
  apply List.ext_getElem
  · simp
  · intro i hi _
    have hlt : i < row.length := by simpa using hi
    simp [cellText, List.getElem?_eq_getElem hlt]

/-- The file is a line for each record. -/
theorem exportChunks_csv (result : ResultSet) (nullText : Text) (rowsPerChunk : ℚ) :
    (exportChunks result (csvPlan result { delimiter := [d], nullText := nullText })
      rowsPerChunk).flatten =
      csvLine [d] result.columns ++
        (result.rows.map (List.map (·.getD nullText))).flatMap
          fun cells ↦ '\r' :: '\n' :: csvLine [d] cells := by
  let plan := csvPlan result { delimiter := [d], nullText := nullText }
  have hrow : ∀ p ∈ result.rows.zipIdx, plan.rowText p =
      '\r' :: '\n' :: csvLine [d] (p.1.map (·.getD nullText)) := by
    intro p hp
    have hwidth := result.width p.1 (List.fst_mem_of_mem_zipIdx hp)
    simp [plan, csvPlan, ChunkPlan.rowText, ← hwidth, cellText_row]
  calc
    _ = plan.head ++ result.rows.zipIdx.flatMap plan.rowText ++ [] := by
      rw [exportChunks_flatten]
      simp [plan, csvPlan]
    _ = csvLine [d] result.columns ++ result.rows.zipIdx.flatMap
        fun p ↦ '\r' :: '\n' :: csvLine [d] (p.1.map (·.getD nullText)) := by
      rw [List.flatMap_congr hrow]
      simp [plan, csvPlan]
    _ = _ := by
      rw [List.flatMap_map, ← List.zipIdx_map_fst 0 result.rows, List.flatMap_map]
      simp

end

/-- Reading a file back gives what was written, but for a last record that is one empty field. -/
theorem parseCsv_exportChunks (result : ResultSet) (hcolumns : result.columns ≠ []) (d : Char)
    (hd : Delimits d) (nullText : Text) (rowsPerChunk : ℚ) :
    let file := (exportChunks result
      (csvPlan result { delimiter := [d], header := true, nullText := nullText }) rowsPerChunk).flatten
    let records := result.records nullText
    (records.getLast? ≠ some [[]] → parseCsv [d] ['"'] file true =
      { headers := result.columns
        rows := result.rows.map (List.map fun cell ↦ some (cell.getD nullText)) }) ∧
    (records.getLast? = some [[]] → parseCsv [d] ['"'] file true = parsedTable true records.dropLast) := by
  intro file records
  have hwidth : ∀ cells ∈ records, cells ≠ [] := by
    intro cells hcells
    obtain rfl | ⟨row, hrow, rfl⟩ := by simpa [records, ResultSet.records] using hcells
    · exact hcolumns
    · have hlength := result.width row hrow
      have hpos := List.length_pos_of_ne_nil hcolumns
      exact fun h ↦ by simp_all
  have hread : parseCsv [d] ['"'] file true = parsedTable true (withoutBlankEnd records) := by
    unfold parseCsv
    rw [show file = _ from exportChunks_csv result nullText rowsPerChunk,
      csvLoop_records hd [] result.columns _ hwidth]
    rfl
  constructor
  · intro hlast
    rw [hread, withoutBlankEnd, if_neg hlast]
    simp [parsedTable, records, ResultSet.records, Function.comp_def]
  · intro hlast
    rw [hread, withoutBlankEnd, if_pos hlast]

/-- One column `a` with the rows `x` and `null`. -/
def oneColumn : ResultSet where
  columns := [['a']]
  rows := [[some ['x']], [none]]
  width := by simp

theorem parseCsv_exportChunks_oneColumn :
    oneColumn.columns ≠ [] ∧ Delimits ';' ∧
      parseCsv [';'] ['"'] (exportChunks oneColumn
        (csvPlan oneColumn { delimiter := [';'], header := true, nullText := ['-'] }) 1).flatten true =
        { headers := [['a']], rows := [[some ['x']], [some ['-']]] } := by
  have hcolumns : oneColumn.columns ≠ [] := by decide
  have hd : Delimits ';' := ⟨by decide, by decide, by decide⟩
  have hread := parseCsv_exportChunks oneColumn hcolumns ';' hd ['-'] 1
  exact ⟨hcolumns, hd, hread.1 (by decide)⟩

/-- With the default empty text for `null`, the last row of `oneColumn` is lost. -/
theorem oneColumn_not_read_back :
    oneColumn.columns ≠ [] ∧ Delimits ',' ∧
      parseCsv [','] ['"'] (exportChunks oneColumn
        (csvPlan oneColumn { delimiter := [','], header := true, nullText := [] }) 2000).flatten true ≠
        { headers := oneColumn.columns
          rows := oneColumn.rows.map (List.map fun cell ↦ some (cell.getD [])) } := by
  refine ⟨by decide, ⟨by decide, by decide, by decide⟩, fun h ↦ ?_⟩
  rw [exportChunks_csv] at h
  have hrows := congrArg ParsedTable.rows h
  revert hrows
  decide

end Squaero.Front
