import Squaero.Front.Csv
import Squaero.Front.EditSession
import Mathlib.Data.List.Dedup

/-!
# Copying a block of cells and pasting it

`rangeToTsv` of `frontend/src/utils/gridRange.ts` writes a block of cells to the clipboard, and
`parseClipboard` of `importers.ts` reads text from there. The writer separates by tabs; the reader
takes the tab only where the first line of the text holds one, and else sniffs the separator.
`planPaste` of `rowPaste.ts` decides what pasted text becomes.
-/

namespace Squaero.Front

open Squaero.Lib

/-! ## Writing -/

/-- `/[\t\n\r"]/`. -/
def isTsvSpecial (c : Char) : Bool := c = '\t' || c = '\n' || c = '\r' || c = '"'

def tsvField : Cell → Text
  | none => []
  | some value =>
    if value.any isTsvSpecial then '"' :: doubleQuotes value ++ ['"'] else value

def rangeToTsv (rows : List (List Cell)) : Text :=
  ['\n'].intercalate (rows.map fun row ↦ ['\t'].intercalate (row.map tsvField))

/-! ## Reading -/

/-- `text.split(/\r?\n/)`. -/
def splitLines : Text → List Text
  | [] => [[]]
  | '\r' :: '\n' :: rest => [] :: splitLines rest
  | '\n' :: rest => [] :: splitLines rest
  | c :: rest => (splitLines rest).modifyHead (c :: ·)

theorem splitLines_ne_nil (text : Text) : splitLines text ≠ [] := by
  induction text using splitLines.induct with
  | case1 => simp [splitLines]
  | case2 rest ih => simp [splitLines]
  | case3 rest ih => simp [splitLines]
  | case4 c rest hcrlf hlf ih =>
    rw [splitLines]
    · simpa using ih
    · exact fun rest' h ↦ hcrlf _ h
    · exact hlf

/-- The first `n` lines, less the blank ones. -/
def sampleLines (text : Text) (n : ℕ) : List Text :=
  (((splitLines text).take (n + 1)).take n).filter fun line ↦ jsTrim line ≠ []

/-- How many times `ch` appears outside double quotes. -/
def countOutsideQuotes (ch : Char) (quoted : Bool) : Text → ℕ
  | [] => 0
  | c :: line =>
    if c = '"' then countOutsideQuotes ch (!quoted) line
    else if c = ch ∧ quoted = false then countOutsideQuotes ch quoted line + 1
    else countOutsideQuotes ch quoted line

/-- `DELIMITERS`. -/
def delimiters : List Char := [',', ';', '\t', '|']

/-- The variables `best` and `bestCount` behind one candidate. -/
def keepBest (takes : Char → ℕ → Bool) (count : Char → ℕ) (best : Option Char × ℕ) (d : Char) :
    Option Char × ℕ :=
  if takes d best.2 then (some d, count d) else best

def detectDelimiter (text : Text) : Char :=
  match sampleLines text 20 with
  | [] => ','
  | first :: more =>
    let count := fun d ↦ countOutsideQuotes d false first
    let uniform := delimiters.foldl (keepBest (fun d bestCount ↦
      bestCount < count d ∧ ∀ l ∈ first :: more, countOutsideQuotes d false l = count d) count)
      (none, 0)
    match uniform.1 with
    | some best => best
    | none =>
      (delimiters.foldl (keepBest (fun d bestCount ↦ bestCount < count d) count) uniform).1.getD ','

/-- The separator `parseClipboard` reads with. -/
def clipboardDelimiter (text : Text) : Char :=
  let header := ((splitLines text).take 1).head?.getD []
  if '\t' ∈ header then '\t' else detectDelimiter text

def parseClipboard (text : Text) : ParsedTable :=
  parseCsv [clipboardDelimiter text] ['"'] text true

/-! ## Pasting -/

/-- `PASTE_ROW_LIMIT`. -/
def pasteRowLimit : ℕ := 500

structure RowSource where
  connDefId : Text
  db : Option Text
  schema : Option Text
  table : Text
  deriving DecidableEq, Repr

/-- The exact copy kept beside the text on the clipboard. -/
structure RowClipboard where
  text : Text
  columns : List Text
  rows : List (List Cell)
  source : Option RowSource
  deriving DecidableEq, Repr

structure PasteTarget where
  columns : List Text
  source : RowSource
  deriving DecidableEq, Repr

inductive WizardReason
  | shape
  | tooMany
  deriving DecidableEq, Repr

inductive PastePlan
  | none
  | inserts (rows : List Values) (ignoredColumns : List Text) (pkMode : PkMode) (fromText : Bool)
  | wizard (reason : WizardReason)
  deriving DecidableEq, Repr

def sameSource (a : Option RowSource) (b : RowSource) : Bool :=
  a.any fun a ↦ a.connDefId = b.connDefId && a.db.getD [] = b.db.getD [] &&
    a.schema.getD [] = b.schema.getD [] && a.table = b.table

/-- `values[column] = cell`. -/
def setValue (values : Values) (entry : Text × Cell) : Values :=
  if entry.1 ∈ values.map Prod.fst then
    values.map fun old ↦ if old.1 = entry.1 then entry else old
  else values ++ [entry]

/-- The object that assignments in this order build. -/
def assigned (entries : List (Text × Cell)) : Values := entries.foldl setValue []

section

variable (toLowerCase : Text → Text)

/-- `byLower.get(key)`. -/
def byLower (columns : List Text) (key : Text) : Option Text :=
  columns.reverse.find? fun c ↦ toLowerCase c = key

/-- The plan for the exact copy. -/
def planCopy (clip : RowClipboard) (target : PasteTarget) : PastePlan :=
  if clip.rows = [] then .none
  else if pasteRowLimit < clip.rows.length then .wizard .tooMany
  else
    let landing := clip.columns.map fun c ↦ byLower toLowerCase target.columns (toLowerCase c)
    if ∀ c ∈ landing, c = Option.none then .wizard .shape
    else
      let rows := clip.rows.map fun row ↦ assigned
        (landing.zipIdx.filterMap fun (col, i) ↦ col.map fun col ↦ (col, row[i]?.join))
      let ignored := (clip.columns.zip landing).filterMap fun (c, col) ↦
        if col = Option.none then some c else Option.none
      .inserts rows ignored (if sameSource clip.source target.source then .generate else .keep) false

def ParsedTable.records (parsed : ParsedTable) : List (List Cell) :=
  parsed.headers.map some :: parsed.rows

/-- The plan for text from somewhere else. -/
def planText (text : Text) (target : PasteTarget) (emptyAsNull : Bool) : PastePlan :=
  let parsed := parseClipboard text
  let records := parsed.records
  let width := target.columns.length
  if ∃ r ∈ records, r.length ≠ width then .wizard .shape
  else
    let headerNames := parsed.headers.map fun h ↦
      byLower toLowerCase target.columns (toLowerCase (jsTrim h))
    let isHeader : Bool := (∀ h ∈ headerNames, h ≠ Option.none) ∧ headerNames.dedup.length = width
    let order := if isHeader then headerNames.reduceOption else target.columns
    let data := if isHeader then parsed.rows else records
    if data = [] then .none
    else if pasteRowLimit < data.length then .wizard .tooMany
    else
      let rows := data.map fun record ↦ assigned <| order.zipIdx.map fun (col, i) ↦
        let cell := record[i]?.join.getD []
        (col, if emptyAsNull ∧ cell = [] then Option.none else some cell)
      .inserts rows [] .keep true

def planPaste (text : Text) (clip : Option RowClipboard) (target : PasteTarget)
    (emptyAsNull : Bool) : PastePlan :=
  match clip.filter fun clip ↦ clip.text = text with
  | some clip => planCopy toLowerCase clip target
  | Option.none =>
    if '\t' ∉ text ∧ '\n' ∉ text then .none else planText toLowerCase text target emptyAsNull

end

/-! ## Reading what was written -/

/-- A line that the parser reads as the record `cells`, up to what closes its last field. -/
structure ReadsAs (d : Char) (line : Text) (cells : List Text) : Prop where
  ne_nil : cells ≠ []
  read : ∀ (records : List (List Text)) (rest : Text), rest.head? ≠ some '"' →
    csvLoop [d] ['"'] ⟨records, [], [], false, false⟩ (line ++ rest) =
      csvLoop [d] ['"']
        ⟨records, cells.getLast ne_nil, cells.dropLast, false, decide (cells ≠ [[]])⟩ rest

section

variable {d : Char}

theorem csvLoop_lf (hd : Delimits d) (records : List (List Text)) (field : Text) (row : List Text)
    (started : Bool) (rest : Text) :
    csvLoop [d] ['"'] ⟨records, field, row, false, started⟩ ('\n' :: rest) =
      csvLoop [d] ['"'] ⟨records ++ [row ++ [field]], [], [], false, false⟩ rest := by
  have hlf : csvChar [d] ['"'] ⟨records, field, row, false, started⟩ '\n' =
      ⟨records ++ [row ++ [field]], [], [], false, false⟩ := by
    simp [csvChar, CsvState.endRecord, hd.lf.symm]
  rw [csvLoop_cons _ _ _ (by simp), hlf]

/-- Lines joined by line feeds are read one record each. -/
theorem csvLoop_lines {α : Type} (hd : Delimits d) (line : α → Text) (cells : α → List Text)
    (records : List (List Text)) (x : α) (xs : List α)
    (hread : ∀ y ∈ x :: xs, ReadsAs d (line y) (cells y)) :
    (csvLoop [d] ['"'] ⟨records, [], [], false, false⟩
      (['\n'].intercalate ((x :: xs).map line))).flush.records =
      withoutBlankEnd (records ++ (x :: xs).map cells) := by
  induction xs generalizing records x with
  | nil =>
    have hx := hread x (.head _)
    have hline := hx.read records [] (by simp)
    rw [List.append_nil] at hline
    rw [List.map_singleton, List.intercalate_singleton, hline]
    exact flush_records records (cells x) hx.ne_nil
  | cons y ys ih =>
    have hx := hread x (.head _)
    have htext : ['\n'].intercalate ((x :: y :: ys).map line) =
        line x ++ '\n' :: ['\n'].intercalate ((y :: ys).map line) := by
      simp [List.intercalate_cons_cons]
    have hrest := ih (records ++ [cells x]) y fun z hz ↦ hread z (.tail _ hz)
    rw [htext, hx.read records _ (by simp), csvLoop_lf hd, List.dropLast_append_getLast, hrest]
    simp

theorem tsvField_eq_csvField (cell : Cell) : tsvField cell = csvField (cell.getD []) ['\t'] := by
  cases cell with
  | none => rfl
  | some value =>
    have hspecial : value.any isTsvSpecial = true ↔
        ['\t'] <:+: value ∨ '"' ∈ value ∨ '\n' ∈ value ∨ '\r' ∈ value := by
      rw [List.singleton_infix_iff, List.any_eq_true]
      simp only [isTsvSpecial, Bool.or_eq_true, decide_eq_true_eq]
      constructor
      · rintro ⟨c, hc, ((rfl | rfl) | rfl) | rfl⟩ <;> simp [hc]
      · rintro (h | h | h | h) <;> exact ⟨_, h, by simp⟩
    simp only [tsvField, csvField, Option.getD_some, hspecial]

theorem readsAs_csvLine (hd : Delimits d) {cells : List Text} (hcells : cells ≠ []) :
    ReadsAs d (csvLine [d] cells) cells := by
  obtain ⟨cell, cells, rfl⟩ := List.exists_cons_of_ne_nil hcells
  refine ⟨hcells, fun records rest hrest ↦ ?_⟩
  rw [csvLoop_line hd records [] false cell cells rest hrest]
  simp

theorem readsAs_tsvLine {row : List Cell} (hrow : row ≠ []) :
    ReadsAs '\t' (['\t'].intercalate (row.map tsvField)) (row.map (·.getD [])) := by
  have hd : Delimits '\t' := ⟨by decide, by decide, by decide⟩
  have hfields : row.map tsvField = (row.map (·.getD [])).map (csvField · ['\t']) := by
    rw [List.map_map]
    exact List.map_congr_left fun cell _ ↦ tsvField_eq_csvField cell
  rw [hfields]
  exact readsAs_csvLine hd (by simpa using hrow)

/-- What a field of its own line is read as. -/
def fieldsOf (d : Char) (value : Text) : List Text :=
  if value.any isTsvSpecial then [value] else value.splitOn d

theorem plain_of_bare {value : Text} (h : value.any isTsvSpecial = false) :
    ∀ c ∈ value, c ≠ '"' ∧ c ≠ '\r' ∧ c ≠ '\n' := by
  intro c hc
  have hplain := List.any_eq_false.1 h c hc
  simp only [isTsvSpecial, Bool.or_eq_true, decide_eq_true_eq, not_or] at hplain
  exact ⟨hplain.2, hplain.1.2, hplain.1.1.2⟩

/-- The pieces between the delimiters hold none, and nothing new. -/
theorem mem_splitOn {value piece : Text} (h : piece ∈ value.splitOn d) :
    ∀ c ∈ piece, c ∈ value ∧ c ≠ d := by
  induction value generalizing piece with
  | nil =>
    rw [List.splitOn_nil, List.mem_singleton] at h
    simp [h]
  | cons x value ih =>
    obtain ⟨first, more, hsplit⟩ := List.exists_cons_of_ne_nil (List.splitOn_ne_nil d value)
    rw [List.splitOn_cons_eq_if_modifyHead, hsplit, List.modifyHead_cons] at h
    rw [hsplit] at ih
    have hlater : ∀ piece ∈ first :: more, ∀ c ∈ piece, c ∈ x :: value ∧ c ≠ d :=
      fun piece hpiece c hc ↦ (ih hpiece c hc).imp_left (.tail _)
    split_ifs at h with hx
    · rcases List.mem_cons.1 h with rfl | h
      · simp
      · exact hlater piece h
    · rcases List.mem_cons.1 h with rfl | h
      · intro c hc
        rcases List.mem_cons.1 hc with rfl | hc
        · exact ⟨.head _, by simpa using hx⟩
        · exact hlater first (.head _) c hc
      · exact hlater piece (.tail _ h)

/-- A bare value is a line of the pieces between the delimiters in it. -/
theorem csvLine_splitOn {value : Text} (h : value.any isTsvSpecial = false) :
    csvLine [d] (value.splitOn d) = value := by
  have hpieces : (value.splitOn d).map (csvField · [d]) = value.splitOn d := by
    conv_rhs => rw [← List.map_id (value.splitOn d)]
    apply List.map_congr_left
    intro piece hpiece
    have hchars (c : Char) (hc : c ∈ piece) := mem_splitOn hpiece c hc
    have hdelimiter : ¬ [d] <:+: piece := fun hd ↦
      (hchars d (List.singleton_infix_iff _ _ |>.1 hd)).2 rfl
    have hplain (c : Char) (hc : c ∈ piece) := plain_of_bare h c (hchars c hc).1
    have hbare : ¬ ([d] <:+: piece ∨ '"' ∈ piece ∨ '\n' ∈ piece ∨ '\r' ∈ piece) := by
      rintro (hd | hquote | hlf | hcr)
      · exact hdelimiter hd
      · exact (hplain _ hquote).1 rfl
      · exact (hplain _ hlf).2.2 rfl
      · exact (hplain _ hcr).2.1 rfl
    rw [csvField, if_neg hbare, id]
  rw [csvLine, hpieces, List.intercalate_splitOn]

theorem readsAs_tsvField (hd : Delimits d) (cell : Cell) :
    ReadsAs d (tsvField cell) (fieldsOf d (cell.getD [])) := by
  have hfield : tsvField cell = tsvField (some (cell.getD [])) := by
    cases cell with
    | none => rfl
    | some value => rfl
  rw [hfield]
  generalize cell.getD [] = value
  cases hspecial : value.any isTsvSpecial with
  | false =>
    have hline : tsvField (some value) = csvLine [d] (value.splitOn d) := by
      rw [tsvField, if_neg (by simp [hspecial]), csvLine_splitOn hspecial]
    rw [hline, fieldsOf, if_neg (by simp [hspecial])]
    exact readsAs_csvLine hd (List.splitOn_ne_nil d value)
  | true =>
    have hvalue : value ≠ [] := by
      rintro rfl
      simp at hspecial
    have hopen (records : List (List Text)) :
        csvChar [d] ['"'] ⟨records, [], [], false, false⟩ '"' = ⟨records, [], [], true, true⟩ := by
      simp [csvChar]
    rw [tsvField, if_pos hspecial, fieldsOf, if_pos hspecial]
    refine ⟨by simp, fun records rest hrest ↦ ?_⟩
    rw [List.cons_append, List.cons_append, List.append_assoc, List.singleton_append,
      csvLoop_cons _ _ _ (by simp), hopen, csvLoop_quoted _ _ _ rfl rfl hrest]
    simp [hvalue]

theorem fieldsOf_eq_singleton_iff {value : Text} :
    fieldsOf d value = [value] ↔ value.any isTsvSpecial = true ∨ d ∉ value := by
  unfold fieldsOf
  split_ifs with hspecial
  · simp [hspecial]
  · simp only [hspecial, Bool.false_eq_true, false_or]
    constructor
    · intro hsplit hd
      have hpiece : value ∈ value.splitOn d := by simp [hsplit]
      exact (mem_splitOn hpiece d hd).2 rfl
    · exact List.splitOn_eq_singleton

end

/-! ## The separator -/

/-- A tab in the first line of the text. -/
def tabFirst (text : Text) : Bool := '\t' ∈ text.takeWhile (· ≠ '\n')

theorem tabFirst_iff {text : Text} :
    tabFirst text = true ↔ ∃ before after, text = before ++ '\t' :: after ∧ '\n' ∉ before := by
  rw [tabFirst, decide_eq_true_eq]
  induction text with
  | nil => simp
  | cons c text ih =>
    by_cases hc : c = '\n'
    · subst hc
      simp only [ne_eq, not_true_eq_false, decide_false, List.takeWhile_cons, Bool.false_eq_true,
        if_false, List.not_mem_nil, false_iff, not_exists, not_and, not_not]
      intro before after h
      cases before with
      | nil => simp at h
      | cons b before =>
        obtain ⟨rfl, -⟩ := List.cons.inj h
        exact .head _
    · rw [List.takeWhile_cons_of_pos (by simpa using hc), List.mem_cons, ih]
      constructor
      · rintro (rfl | ⟨before, after, rfl, hbefore⟩)
        · exact ⟨[], text, rfl, by simp⟩
        · exact ⟨c :: before, after, rfl, by simp [Ne.symm hc, hbefore]⟩
      · rintro ⟨before, after, h, hbefore⟩
        cases before with
        | nil =>
          obtain ⟨rfl, -⟩ := List.cons.inj h
          exact .inl rfl
        | cons b before =>
          obtain ⟨rfl, rfl⟩ := List.cons.inj h
          exact .inr ⟨before, after, rfl, fun h ↦ hbefore (.tail _ h)⟩

theorem tab_mem_header {text : Text} :
    '\t' ∈ ((splitLines text).take 1).head?.getD [] ↔ tabFirst text = true := by
  rw [tabFirst, decide_eq_true_eq, List.head?_take, if_neg one_ne_zero]
  induction text using splitLines.induct with
  | case1 => simp [splitLines]
  | case2 rest ih => simp [splitLines]
  | case3 rest ih => simp [splitLines]
  | case4 c rest hcrlf hlf ih =>
    have hc : c ≠ '\n' := hlf
    have hsplit : splitLines (c :: rest) = (splitLines rest).modifyHead (c :: ·) := by
      rw [splitLines]
      · exact fun rest' h ↦ hcrlf _ h
      · exact hlf
    rw [hsplit, List.takeWhile_cons_of_pos (by simpa using hc), List.mem_cons, ← ih]
    obtain ⟨line, lines, hlines⟩ := List.exists_cons_of_ne_nil (splitLines_ne_nil rest)
    simp [hlines]

theorem keepBest_mem {takes : Char → ℕ → Bool} {count : Char → ℕ} {candidates : List Char}
    {best : Option Char × ℕ} (h : ∀ d ∈ best.1, d ∈ delimiters)
    (hcandidates : ∀ d ∈ candidates, d ∈ delimiters) :
    ∀ d ∈ (candidates.foldl (keepBest takes count) best).1, d ∈ delimiters := by
  induction candidates generalizing best with
  | nil => exact h
  | cons c candidates ih =>
    apply ih _ fun d hd ↦ hcandidates d (.tail _ hd)
    rw [keepBest]
    split_ifs
    · intro d hd
      cases hd
      exact hcandidates c (.head _)
    · exact h

theorem detectDelimiter_mem (text : Text) : detectDelimiter text ∈ delimiters := by
  rw [detectDelimiter]
  split
  · simp [delimiters]
  · next first more hlines =>
    simp only []
    split
    · next best hbest => exact keepBest_mem (by simp) (fun d hd ↦ hd) best hbest
    · next hnone =>
      cases hfrequent : (delimiters.foldl (keepBest _ _) _).1 with
      | none => simp [delimiters]
      | some best =>
        apply keepBest_mem _ (fun d hd ↦ hd) best hfrequent
        intro d hd
        rw [hnone] at hd
        cases hd

theorem delimits_clipboardDelimiter (text : Text) : Delimits (clipboardDelimiter text) := by
  have hdelimits : ∀ d ∈ delimiters, d ≠ '"' ∧ d ≠ '\r' ∧ d ≠ '\n' := by decide
  rw [clipboardDelimiter]
  split_ifs
  · exact ⟨by decide, by decide, by decide⟩
  · obtain ⟨hquote, hcr, hlf⟩ := hdelimits _ (detectDelimiter_mem text)
    exact ⟨hquote, hcr, hlf⟩

/-! ## Blocks -/

/-- A rectangle of cells, one at least. -/
structure Block where
  rows : List (List Cell)
  width : ℕ
  rows_ne_nil : rows ≠ []
  width_pos : 0 < width
  rectangular : ∀ row ∈ rows, row.length = width

namespace Block

variable (block : Block)

/-- The block with `null` read as the empty string. -/
def texts : List (List Text) := block.rows.map (List.map (·.getD []))

def cells : List (List Cell) := block.texts.map (List.map some)

def first : Text := block.rows.flatten.head?.join.getD []

def last : Text := block.rows.flatten.getLast?.join.getD []

/-- The first cell has a line break and no tab in front of it, so that the first line of the text
ends in that cell. -/
def BreaksEarly : Prop := '\n' ∈ block.first ∧ tabFirst block.first = false

/-- The block comes back from the clipboard. -/
def ReadBack : Prop := (parseClipboard (rangeToTsv block.rows)).records = block.cells

/-- No cell that is written without quotes holds `d`. -/
def Unsplit (d : Char) : Prop :=
  ∀ row ∈ block.rows, ∀ cell ∈ row, (cell.getD []).any isTsvSpecial = true ∨ d ∉ cell.getD []

end Block

theorem doubleQuotes_append (before after : Text) :
    doubleQuotes (before ++ after) = doubleQuotes before ++ doubleQuotes after :=
  List.flatMap_append

theorem mem_doubleQuotes {value : Text} {c : Char} (h : c ∈ doubleQuotes value) : c ∈ value := by
  obtain ⟨d, hd, hc⟩ := List.mem_flatMap.1 h
  split_ifs at hc with hquote
  · have hc : c = d := by simpa [hquote] using hc
    exact hc ▸ hd
  · exact List.mem_singleton.1 hc ▸ hd

theorem tabFirst_append {before : Text} (h : '\n' ∉ before) (rest : Text) :
    tabFirst (before ++ '\t' :: rest) = true :=
  tabFirst_iff.2 ⟨before, rest, rfl, h⟩

/-- A cell without an early line break leaves a tab to the first line of the text. -/
theorem tabFirst_tsvField {cell : Cell} (rest : Text)
    (h : ¬ ('\n' ∈ cell.getD [] ∧ tabFirst (cell.getD []) = false)) :
    tabFirst (tsvField cell ++ '\t' :: rest) = true := by
  cases cell with
  | none => exact tabFirst_append (List.not_mem_nil : '\n' ∉ ([] : Text)) rest
  | some value =>
    by_cases hlf : '\n' ∈ value
    · have htab : tabFirst value = true := by
        have hvalue : ¬ ('\n' ∈ value ∧ tabFirst value = false) := h
        simpa [hlf] using hvalue
      obtain ⟨before, after, rfl, hbefore⟩ := tabFirst_iff.1 htab
      have hspecial : (before ++ '\t' :: after).any isTsvSpecial = true := by
        simp [isTsvSpecial]
      have hdouble : doubleQuotes (before ++ '\t' :: after) =
          doubleQuotes before ++ '\t' :: doubleQuotes after := by
        rw [doubleQuotes_append]
        rfl
      have hopened : '\n' ∉ '"' :: doubleQuotes before := by
        intro h
        exact hbefore (mem_doubleQuotes (by simpa using h))
      rw [tsvField, if_pos hspecial, hdouble, List.append_assoc, List.cons_append,
        List.append_assoc, List.cons_append, ← List.cons_append]
      exact tabFirst_append hopened _
    · apply tabFirst_append
      rw [tsvField]
      split_ifs
      · intro h
        have hmem : '\n' ∈ doubleQuotes value := by simpa using h
        exact hlf (mem_doubleQuotes hmem)
      · exact hlf

namespace Block

variable {block : Block}

theorem exists_rows (block : Block) : ∃ row rows, block.rows = row :: rows ∧ row ≠ [] := by
  obtain ⟨row, rows, hrows⟩ := List.exists_cons_of_ne_nil block.rows_ne_nil
  have hlength := block.rectangular row (hrows ▸ .head _)
  have hpos := block.width_pos
  refine ⟨row, rows, hrows, ?_⟩
  rintro rfl
  simp at hlength
  omega

/-- Where the columns are several, the tab behind the first cell is in the first line. -/
theorem clipboardDelimiter_eq (hwidth : 1 < block.width) (hfirst : ¬ block.BreaksEarly) :
    clipboardDelimiter (rangeToTsv block.rows) = '\t' := by
  obtain ⟨row, rows, hrows, hrow⟩ := block.exists_rows
  have hlength := block.rectangular row (hrows ▸ .head _)
  obtain ⟨cell, row, rfl⟩ := List.exists_cons_of_ne_nil hrow
  have hmore : row ≠ [] := by
    rintro rfl
    simp at hlength
    omega
  obtain ⟨next, row, rfl⟩ := List.exists_cons_of_ne_nil hmore
  have hcell : block.first = cell.getD [] := by
    simp [Block.first, hrows]
  have htext : ∃ rest, rangeToTsv block.rows = tsvField cell ++ '\t' :: rest := by
    rw [rangeToTsv, hrows]
    cases rows with
    | nil => simp [List.intercalate_cons_cons]
    | cons more rows => simp [List.intercalate_cons_cons]
  obtain ⟨rest, htext⟩ := htext
  have htab : tabFirst (tsvField cell ++ '\t' :: rest) = true :=
    tabFirst_tsvField rest (hcell ▸ hfirst)
  have hheader := tab_mem_header.2 htab
  rw [clipboardDelimiter, htext, if_pos hheader]

theorem delimits (block : Block) : Delimits (clipboardDelimiter (rangeToTsv block.rows)) :=
  delimits_clipboardDelimiter _

/-- The records behind the reading of a text, line by line. -/
theorem parseClipboard_lines {text : Text} {α : Type} (line : α → Text) (cells : α → List Text)
    (x : α) (xs : List α) (htext : text = ['\n'].intercalate ((x :: xs).map line))
    (hread : ∀ y ∈ x :: xs, ReadsAs (clipboardDelimiter text) (line y) (cells y)) :
    parseClipboard text = parsedTable true (withoutBlankEnd ((x :: xs).map cells)) := by
  have hrecords := csvLoop_lines (delimits_clipboardDelimiter text) line cells [] x xs hread
  rw [List.nil_append, ← htext] at hrecords
  rw [parseClipboard, parseCsv, hrecords]

theorem records_parsedTable {records : List (List Text)} (h : records ≠ []) :
    (parsedTable true records).records = records.map (List.map some) := by
  cases records with
  | nil => exact absurd rfl h
  | cons headers rows => rfl

/-- Several columns come back. -/
theorem readBack_of_tab (hwidth : 1 < block.width)
    (htab : clipboardDelimiter (rangeToTsv block.rows) = '\t') : block.ReadBack := by
  obtain ⟨row, rows, hrows, -⟩ := block.exists_rows
  have hne : ∀ row ∈ block.rows, row ≠ [] := by
    intro row hrow h
    have hlength := block.rectangular row hrow
    simp [h] at hlength
    omega
  have htext : rangeToTsv block.rows = ['\n'].intercalate ((row :: rows).map
      fun row ↦ ['\t'].intercalate (row.map tsvField)) := by rw [rangeToTsv, hrows]
  have htable := parseClipboard_lines _ (List.map (·.getD [])) row rows htext
    fun row hrow ↦ htab ▸ readsAs_tsvLine (hne row (hrows ▸ hrow))
  have hlast : ((row :: rows).map (List.map (·.getD []))).getLast? ≠ some [[]] := by
    intro h
    obtain ⟨last, hlast, hblank⟩ := List.mem_map.1 (List.mem_of_getLast? h)
    have hlength := block.rectangular last (hrows ▸ hlast)
    have hone : last.length = 1 := by simpa using congrArg List.length hblank
    omega
  rw [ReadBack, htable, withoutBlankEnd, if_neg hlast, records_parsedTable (by simp), cells, texts, hrows]

theorem exists_column (hwidth : block.width = 1) :
    ∃ cell column, block.rows = (cell :: column).map ([·]) := by
  obtain ⟨row, rows, hrows, -⟩ := block.exists_rows
  have hsingle : ∀ row ∈ block.rows, ∃ cell, row = [cell] := by
    intro row hrow
    have hlength := block.rectangular row hrow
    rw [hwidth] at hlength
    exact List.length_eq_one_iff.1 hlength
  have hflat : ∀ rows : List (List Cell), (∀ row ∈ rows, ∃ cell, row = [cell]) →
      rows = rows.flatten.map ([·]) := by
    intro rows hrows
    induction rows with
    | nil => rfl
    | cons row rows ih =>
      obtain ⟨cell, rfl⟩ := hrows row (.head _)
      have hrest := ih fun row hrow ↦ hrows row (.tail _ hrow)
      simpa using hrest
  obtain ⟨cell, hcell⟩ := hsingle row (hrows ▸ .head _)
  refine ⟨cell, rows.flatten, ?_⟩
  rw [hrows, hcell, List.map_cons,
    ← hflat rows fun row hrow ↦ hsingle row (hrows ▸ .tail _ hrow)]

/-- A single column comes back unless it ends in an empty cell or a cell is split. -/
theorem readBack_iff_of_column (hwidth : block.width = 1) :
    block.ReadBack ↔
      block.last ≠ [] ∧ block.Unsplit (clipboardDelimiter (rangeToTsv block.rows)) := by
  obtain ⟨cell, column, hrows⟩ := exists_column hwidth
  let d := clipboardDelimiter (rangeToTsv block.rows)
  let value : Cell → Text := fun cell ↦ cell.getD []
  let records := (cell :: column).map fun cell ↦ fieldsOf d (value cell)
  have htable : parseClipboard (rangeToTsv block.rows) =
      parsedTable true (withoutBlankEnd records) := by
    apply parseClipboard_lines tsvField (fun cell ↦ fieldsOf d (value cell)) cell column
    · rw [rangeToTsv, hrows, List.map_map]
      congr 1
      exact List.map_congr_left fun cell _ ↦ by simp
    · exact fun cell _ ↦ readsAs_tsvField (delimits block) cell
  have hcells : block.cells = ((cell :: column).map fun cell ↦ [value cell]).map (List.map some) := by
    have htexts : block.texts = (cell :: column).map fun cell ↦ [value cell] := by
      rw [texts, hrows, List.map_map]
      exact List.map_congr_left fun cell _ ↦ rfl
    rw [cells, htexts]
  have hlast (f : Text → List Text) :
      ((cell :: column).map fun cell ↦ f (value cell)).getLast? = some (f block.last) := by
    have hflat : block.rows.flatten = cell :: column := by
      rw [hrows, ← List.flatMap_def, List.flatMap_singleton']
    rw [List.getLast?_map, Block.last, hflat, List.getLast?_eq_getLast_of_ne_nil (by simp)]
    simp [value]
  have hblank : fieldsOf d [] = [[]] := by simp [fieldsOf]
  have hunsplit : block.Unsplit d ↔ records = (cell :: column).map fun cell ↦ [value cell] := by
    rw [List.map_inj_left]
    simp only [Unsplit, hrows, List.forall_mem_map, List.mem_singleton, forall_eq,
      ← fieldsOf_eq_singleton_iff, value]
  constructor
  · intro hback
    rw [ReadBack, htable, hcells] at hback
    have hfull : ¬ records.getLast? = some [[]] := by
      intro hend
      rw [withoutBlankEnd, if_pos hend] at hback
      have hlength := congrArg List.length hback
      by_cases hempty : records.dropLast = []
      · rw [hempty] at hback
        simp [parsedTable, ParsedTable.records] at hback
      · rw [records_parsedTable hempty] at hlength
        simp [records] at hlength
    rw [withoutBlankEnd, if_neg hfull, records_parsedTable (by simp [records])] at hback
    have hrecords := List.map_injective_iff.2
      (List.map_injective_iff.2 (Option.some_injective Text)) hback
    refine ⟨fun hend ↦ hfull ?_, hunsplit.2 hrecords⟩
    rw [hlast, hend, hblank]
  · rintro ⟨hend, hkept⟩
    have hrecords := hunsplit.1 hkept
    have hfull : ¬ records.getLast? = some [[]] := by
      rw [hrecords, hlast fun value ↦ [value]]
      simpa using hend
    rw [ReadBack, htable, hcells, withoutBlankEnd, if_neg hfull,
      records_parsedTable (by simp [records]), hrecords]

/-- When the clipboard keeps the block: there are several columns, or the one there is does not end
in an empty cell and holds the separator that is found only between quotes. -/
def Kept (block : Block) : Prop :=
  1 < block.width ∨
    block.last ≠ [] ∧ block.Unsplit (clipboardDelimiter (rangeToTsv block.rows))

theorem readBack_iff (hfirst : block.width = 1 ∨ ¬ block.BreaksEarly) :
    block.ReadBack ↔ block.Kept := by
  have hpos := block.width_pos
  rcases Nat.lt_or_ge 1 block.width with hseveral | hone
  · have hearly := hfirst.resolve_left (by omega)
    have htab := clipboardDelimiter_eq hseveral hearly
    exact iff_of_true (readBack_of_tab hseveral htab) (.inl hseveral)
  · have hwidth : block.width = 1 := by omega
    rw [readBack_iff_of_column hwidth, Kept, or_iff_right (by omega)]

end Block

/-! ## Pasting -/

/-- Assigning to different columns appends. -/
theorem assigned_of_nodup {entries : List (Text × Cell)} (h : (entries.map Prod.fst).Nodup) :
    assigned entries = entries := by
  have hfold : ∀ (done : Values), ((done ++ entries).map Prod.fst).Nodup →
      entries.foldl setValue done = done ++ entries := by
    clear h
    induction entries with
    | nil => simp
    | cons entry entries ih =>
      intro done hdone
      have hnew : entry.1 ∉ done.map Prod.fst := by
        rw [List.map_append, List.nodup_append] at hdone
        exact fun hmem ↦ hdone.2.2 _ hmem _ (.head _) rfl
      rw [List.foldl_cons, setValue, if_neg hnew, ih]
      · simp
      · simpa using hdone
  exact hfold [] h

section

variable {toLowerCase : Text → Text}

/-- The texts `names` name all the columns of the target. -/
def NamesAll (toLowerCase : Text → Text) (names columns : List Text) : Prop :=
  ∀ c ∈ columns, ∃ h ∈ names, toLowerCase (jsTrim h) = toLowerCase c

theorem byLower_eq_some {columns : List Text} {key c : Text}
    (h : byLower toLowerCase columns key = some c) : c ∈ columns ∧ toLowerCase c = key := by
  have hmem := List.mem_of_find?_eq_some h
  have hkey := List.find?_some h
  exact ⟨List.mem_reverse.1 hmem, by simpa using hkey⟩

/-- A first line that is taken for a header names all the columns. -/
theorem namesAll_of_header {names columns : List Text}
    (hall : ∀ h ∈ names.map fun h ↦ byLower toLowerCase columns (toLowerCase (jsTrim h)), h ≠ none)
    (hlength : (names.map fun h ↦
      byLower toLowerCase columns (toLowerCase (jsTrim h))).dedup.length = columns.length) :
    NamesAll toLowerCase names columns := by
  let landing := names.map fun h ↦ byLower toLowerCase columns (toLowerCase (jsTrim h))
  have hsubset : landing.dedup ⊆ columns.map some := by
    intro c hc
    have hc := List.mem_dedup.1 hc
    obtain ⟨h, hh, rfl⟩ := List.mem_map.1 hc
    obtain ⟨c, hsome⟩ := Option.ne_none_iff_exists'.1 (hall _ hc)
    rw [hsome]
    exact List.mem_map_of_mem (byLower_eq_some hsome).1
  have hsubperm := List.subperm_of_subset (List.nodup_dedup landing) hsubset
  have hperm := hsubperm.perm_of_length_le (by rw [List.length_map, hlength])
  intro c hc
  have hlanding : some c ∈ landing :=
    List.mem_dedup.1 (hperm.mem_iff.2 (List.mem_map_of_mem hc))
  obtain ⟨h, hh, hsome⟩ := List.mem_map.1 hlanding
  exact ⟨h, hh, (byLower_eq_some hsome).2.symm⟩

theorem zipIdx_map_getElem? {columns : List Text} {r : List Text}
    (h : r.length = columns.length) :
    (columns.zipIdx.map fun (col, i) ↦ (col, some ((r.map some)[i]?.join.getD []))) =
      columns.zip (r.map some) := by
  apply List.ext_getElem
  · simp [h]
  · intro i hi _
    have hlt : i < r.length := by simpa [h] using hi
    simp [List.getElem?_eq_getElem hlt]

/-- Lines placed by position. -/
theorem planText_of_records {text : Text} {records : List (List Text)} {target : PasteTarget}
    (hrecords : (parseClipboard text).records = records.map (List.map some))
    (hwidth : ∀ r ∈ records, r.length = target.columns.length)
    (hnames : ∀ names ∈ records.head?, ¬ NamesAll toLowerCase names target.columns) :
    planText toLowerCase text target false =
      if pasteRowLimit < records.length then .wizard .tooMany
      else .inserts (records.map fun r ↦ assigned (target.columns.zip (r.map some))) [] .keep true := by
  have hne : records ≠ [] := by
    rintro rfl
    simp [ParsedTable.records] at hrecords
  have hheaders : (parseClipboard text).headers ∈ records.head? := by
    obtain ⟨r, records, rfl⟩ := List.exists_cons_of_ne_nil hne
    have hheader := (List.cons.inj hrecords).1
    have hinj := List.map_injective_iff.2 (Option.some_injective Text) hheader
    simp [hinj]
  have hshape : ¬ ∃ r ∈ (parseClipboard text).records, r.length ≠ target.columns.length := by
    rw [hrecords]
    simpa using hwidth
  have hheader : ¬ ((∀ h ∈ (parseClipboard text).headers.map fun h ↦
      byLower toLowerCase target.columns (toLowerCase (jsTrim h)), h ≠ none) ∧
      ((parseClipboard text).headers.map fun h ↦
        byLower toLowerCase target.columns (toLowerCase (jsTrim h))).dedup.length =
        target.columns.length) :=
    fun ⟨hall, hlength⟩ ↦ hnames _ hheaders (namesAll_of_header hall hlength)
  have hdata : ¬ records.map (List.map some) = [] := by simpa using hne
  rw [planText]
  simp only []
  rw [if_neg hshape]
  simp only [hheader, decide_false, Bool.false_eq_true, if_false, hrecords, if_neg hdata, false_and,
    List.length_map, List.map_map]
  congr 2
  apply List.map_congr_left
  intro r hr
  exact congrArg assigned (zipIdx_map_getElem? (hwidth r hr))

end

/-- Two rows of two cells: a tab, NULL, a comma and a quote. -/
def twoByTwo : Block where
  rows := [[some ['a', '\t', 'b'], none], [some ['x', ',', 'y'], some ['"']]]
  width := 2
  rows_ne_nil := by simp
  width_pos := Nat.two_pos
  rectangular := by simp

def pasteTarget : PasteTarget :=
  ⟨[['p'], ['q']], ⟨['c'], none, none, ['t']⟩⟩

def oneCell : Block where
  rows := [[some ['x']]]
  width := 1
  rows_ne_nil := by simp
  width_pos := Nat.one_pos
  rectangular := by simp

end Squaero.Front
