import Squaero.Front.Exporters
import Squaero.Lib.Utf8
import Squaero.Lib.Xml

/-!
# Worksheets

`utils/xlsx.ts` writes a result as the XML of a worksheet, in one text or a chunk of rows at a time, and
`utils/xlsxRead.ts` reads a worksheet back. A cell comes back as it was written unless XML takes one of its
characters for something else: a carriage return becomes a line feed, and a control character makes the whole
sheet unreadable.
-/

namespace Squaero.Front.Xlsx

open Squaero.Lib Squaero.Front.Export

/-! ## Writing -/

def xmlEscape (s : Text) : Text :=
  replaceChar '\'' "&apos;" (replaceChar '"' "&quot;" (replaceChar '>' "&gt;" (replaceChar '<' "&lt;"
    (replaceChar '&' "&amp;" s))))

/-- The loop of `colRef`, which puts each letter in front of those before. -/
def colRef (n : ℕ) : Text :=
  (if 26 ≤ n then colRef (n / 26 - 1) else []) ++ [Char.ofNat (65 + n % 26)]
  decreasing_by omega

def cellRef (col row1 : ℕ) : Text := colRef col ++ Nat.toDigits 10 row1

def isNumericCell (value type : Text) : Bool :=
  if isNumberType type = false then false
  else if jsTrim value = [] then false
  else
    match numberOf value with
    | .finite negative m => JsNum.toText (.finite negative m) = value
    | _ => false

def cellXml (value : Cell) (type : Text) (col row1 : ℕ) : Text :=
  let ref := cellRef col row1
  match value with
  | none => "<c r=\"".toList ++ (ref ++ "\"/>".toList)
  | some v =>
    if isNumericCell v type then "<c r=\"".toList ++ (ref ++ ("\"><v>".toList ++ (v ++ "</v></c>".toList)))
    else
      "<c r=\"".toList ++ (ref ++ ("\" t=\"inlineStr\"><is><t xml:space=\"preserve\">".toList ++ (xmlEscape v ++
        "</t></is></c>".toList)))

/-- A row of cells, each with the type of its column. -/
def rowXml (cells : List (Cell × Text)) (r1 : ℕ) : Text :=
  "<row r=\"".toList ++ (Nat.toDigits 10 r1 ++ ("\">".toList ++
    ((cells.zipIdx.flatMap fun c ↦ cellXml c.1.1 c.1.2 c.2 r1) ++ "</row>".toList)))

def headerCells (cols : List ResultColumn) : List (Cell × Text) := cols.map fun c ↦ (some c.name, "text".toList)

def rowCells (cols : List ResultColumn) (row : List Cell) : List (Cell × Text) :=
  (cellsOf cols row).map fun c ↦ (c.2, c.1.type)

def sheetHead : Text :=
  "<?xml version=\"1.0\" encoding=\"UTF-8\" standalone=\"yes\"?>".toList ++
    "<worksheet xmlns=\"http://schemas.openxmlformats.org/spreadsheetml/2006/main\">".toList ++ "<sheetData>".toList

def sheetTail : Text := "</sheetData></worksheet>".toList

def sheetXml (result : Result) : Text :=
  let cols := result.columns
  let header := rowXml (headerCells cols) 1
  let body := result.rows.zipIdx.flatMap fun r ↦ rowXml (rowCells cols r.1) (r.2 + 2)
  sheetHead ++ (header ++ (body ++ sheetTail))

/-- The rows of the sheet for the loop over chunks, which is the one of `exportChunks`. -/
def sheetPlan (cols : List ResultColumn) : ChunkPlan where
  head := []
  firstSep := []
  sep := []
  row := fun row r ↦ rowXml (rowCells cols row) (r + 2)
  tail := []
  emptyTail := []

/-- The bytes, `strToU8` of each part. -/
def sheetU8 (result : Result) (rowsPerChunk : JsNum) : Text :=
  let cols := result.columns
  let parts := utf8 (sheetHead ++ rowXml (headerCells cols) 1) ::
    ((chunkPieces (sheetPlan cols) result.rows rowsPerChunk).map utf8 ++ [utf8 sheetTail])
  parts.flatten

/-! ## Reading -/

def colIndexFromRef (ref : Text) : ℕ :=
  let letters := ref.takeWhile Char.isAlpha
  if letters = [] then 0 else letters.foldl (fun n c ↦ n * 26 + (c.toUpper.toNat - 64)) 0 - 1

/-- `shared[n] ?? null` -/
def sharedAt (shared : List Text) : JsNum → Cell
  | .finite negative m =>
    if (negative = false ∨ m.value = 0) ∧ m.value.den = 1 then shared[m.value.num.toNat]? else none
  | _ => none

def cellValue (c : Xml.Node) (shared : List Text) : Cell :=
  if c.attribute "t".toList = some "inlineStr".toList then
    (c.elements "is".toList).head?.map fun inline ↦ (inline.elements "t".toList).flatMap Xml.Node.textContent
  else
    let text := (c.elements "v".toList).head?.map Xml.Node.textContent
    if c.attribute "t".toList = some "s".toList then text.bind fun text ↦ sharedAt shared (numberOf text) else text

/-- A cell put at its column. -/
def placeCell (shared : List Text) (arr : List Cell) (c : Xml.Node) : List Cell :=
  let ref := (c.attribute "r".toList).getD []
  let col := if ref ≠ [] then colIndexFromRef ref else arr.length
  (arr ++ List.replicate (col + 1 - arr.length) none).set col (cellValue c shared)

def readRow (shared : List Text) (row : Xml.Node) : List Cell :=
  (row.elements "c".toList).foldl (placeCell shared) []

/-- The padded grid of `readSheetPart`. -/
def readGrid (doc : Xml.Node) (shared : List Text) : List (List Cell) :=
  let grid := (doc.named "row".toList).map (readRow shared)
  let width := grid.foldl (fun w row ↦ max w row.length) 0
  grid.map fun row ↦ row ++ List.replicate (width - row.length) none

structure ParsedTable where
  headers : List Text
  rows : List (List Cell)

/-- ``(h ?? "").trim() || `Columna ${i + 1}` ``. -/
def headerOf (h : Cell) (i : ℕ) : Text :=
  let name := jsTrim (h.getD [])
  if name ≠ [] then name else "Columna ".toList ++ Nat.toDigits 10 (i + 1)

def readSheetPart (doc : Xml.Node) (shared : List Text) : ParsedTable :=
  match readGrid doc shared with
  | [] => ⟨[], []⟩
  | header :: rows => ⟨header.zipIdx.map fun h ↦ headerOf h.1 h.2, rows⟩

/-! ## Columns -/

/-- The number that the letters of a column count to, from one on. -/
def letterValue (letters : Text) : ℕ := letters.foldl (fun n c ↦ n * 26 + (c.toUpper.toNat - 64)) 0

theorem letter_ok : ∀ i < 26, ((Char.ofNat (65 + i)).isAlpha = true ∧ Xml.isXmlChar (Char.ofNat (65 + i)) = true) ∧
    (Char.ofNat (65 + i)).toUpper.toNat - 64 = i + 1 := by decide

theorem colRef_letters (n : ℕ) : colRef n ≠ [] ∧ (∀ c ∈ colRef n, c.isAlpha = true ∧ Xml.isXmlChar c = true) ∧
    letterValue (colRef n) = n + 1 := by
  induction n using Nat.strong_induction_on with
  | h n ih =>
    obtain ⟨halpha, hvalue⟩ := letter_ok (n % 26) (Nat.mod_lt n (by decide))
    rw [colRef]
    split_ifs with h
    · obtain ⟨-, hletters, hcount⟩ := ih (n / 26 - 1) (by omega)
      refine ⟨by simp, List.forall_mem_append.mpr ⟨hletters, List.forall_mem_singleton.mpr halpha⟩, ?_⟩
      unfold letterValue at hcount ⊢
      rw [List.foldl_append, hcount, List.foldl_cons, List.foldl_nil, hvalue]
      omega
    · refine ⟨by simp, List.forall_mem_singleton.mpr halpha, ?_⟩
      unfold letterValue
      rw [List.nil_append, List.foldl_cons, List.foldl_nil, hvalue]
      omega

/-- A reference leads to its column. -/
theorem colIndexFromRef_cellRef (col row1 : ℕ) : colIndexFromRef (cellRef col row1) = col := by
  obtain ⟨hne, hletters, hcount⟩ := colRef_letters col
  have hdigits := Json.digits_toDigits row1
  have hstop : (Nat.toDigits 10 row1).takeWhile Char.isAlpha = [] := by
    rw [List.takeWhile_eq_nil_iff]
    intro hpos halpha
    have hdigit := hdigits.2 _ (List.getElem_mem hpos)
    have hword := (Bool.or_eq_false_iff.mp (isWordChar_of_isDigit hdigit)).1
    exact absurd halpha (hword ▸ Bool.false_ne_true)
  have htake : (cellRef col row1).takeWhile Char.isAlpha = colRef col := by
    rw [cellRef, List.takeWhile_append_of_pos fun c hc ↦ (hletters c hc).1, hstop, List.append_nil]
  unfold colIndexFromRef
  dsimp only
  rw [htake, if_neg hne]
  unfold letterValue at hcount
  omega

/-! ## Cells -/

theorem xmlEscape_append (a b : Text) : xmlEscape (a ++ b) = xmlEscape a ++ xmlEscape b := by
  have hreplace (c : Char) (text : String) (a b : Text) :
      replaceChar c text (a ++ b) = replaceChar c text a ++ replaceChar c text b := List.flatMap_append
  unfold xmlEscape
  rw [hreplace, hreplace, hreplace, hreplace, hreplace]

theorem xmlEscape_singleton (c : Char) : xmlEscape [c] = Xml.escape c := by
  have hreplace {d : Char} (text : String) (h : c ≠ d) : replaceChar d text [c] = [c] := by
    rw [replaceChar, List.flatMap_singleton, if_neg h]
  by_cases hplain : c ∈ ['&', '<', '>', '"', '\'']
  · have hall : ∀ c ∈ ['&', '<', '>', '"', '\''], xmlEscape [c] = Xml.escape c := by decide
    exact hall c hplain
  · rw [Xml.escape_of_plain hplain]
    simp only [List.mem_cons, not_or] at hplain
    unfold xmlEscape
    rw [hreplace _ hplain.1, hreplace _ hplain.2.1, hreplace _ hplain.2.2.1, hreplace _ hplain.2.2.2.1,
      hreplace _ hplain.2.2.2.2.1]

theorem xmlEscape_eq (s : Text) : xmlEscape s = s.flatMap Xml.escape := by
  induction s with
  | nil => rfl
  | cons c s ih =>
    calc xmlEscape ([c] ++ s)
      _ = Xml.escape c ++ s.flatMap Xml.escape := by rw [xmlEscape_append, xmlEscape_singleton, ih]
      _ = (c :: s).flatMap Xml.escape := List.flatMap_cons.symm

/-- A numeric cell is written of digits and their signs. -/
theorem chars_of_isNumericCell {value type : Text} (h : isNumericCell value type = true) :
    value ≠ [] ∧ ∀ c ∈ value, c.isDigit = true ∨ c ∈ ['.', 'e', '-', '+'] := by
  unfold isNumericCell at h
  split_ifs at h with htype hblank
  split at h
  case h_2 => cases h
  case h_1 negative m _ =>
    have hne : value ≠ [] := by
      rintro rfl
      exact hblank rfl
    refine ⟨hne, ?_⟩
    rw [← of_decide_eq_true h, JsNum.toText]
    have hchars := (laidOut_toText m).chars
    split_ifs
    · exact List.forall_mem_cons.mpr ⟨.inr (by decide), hchars⟩
    · exact hchars

theorem plain_of_isNumericCell {value type : Text} (h : isNumericCell value type = true) :
    ∀ c ∈ value, c ∉ ['<', '>', '&', '\r', '\n'] := by
  intro c hc
  obtain hdigit | hsign := (chars_of_isNumericCell h).2 c hc
  · intro hmem
    have hall : ∀ c ∈ ['<', '>', '&', '\r', '\n'], c.isDigit = false := by decide
    exact absurd hdigit (hall c hmem ▸ Bool.false_ne_true)
  · have hall : ∀ c ∈ ['.', 'e', '-', '+'], c ∉ ['<', '>', '&', '\r', '\n'] := by decide
    exact hall c hsign

/-- The children of an element with nothing but character data. -/
def content (v : Text) : List Xml.Node := if v = [] then [] else [.text v]

/-- The element of a cell. -/
def cellNode (value : Cell) (type : Text) (col row1 : ℕ) : Xml.Node :=
  let ref := cellRef col row1
  match value with
  | none => .element "c".toList [("r".toList, ref)] []
  | some v =>
    if isNumericCell v type then .element "c".toList [("r".toList, ref)] [.element "v".toList [] (content v)]
    else
      .element "c".toList [("r".toList, ref), ("t".toList, "inlineStr".toList)]
        [.element "is".toList [] [.element "t".toList [("xml:space".toList, "preserve".toList)] (content v)]]

theorem digits_plain (n : ℕ) : Xml.IsPlain (Nat.toDigits 10 n) := by
  intro c hc hmem
  have hall : ∀ c ∈ ['"', '<', '&', '\t', '\n', '\r'], c.isDigit = false := by decide
  exact absurd ((Json.digits_toDigits n).2 c hc) (hall c hmem ▸ Bool.false_ne_true)

theorem cellRef_plain (col row1 : ℕ) : Xml.IsPlain (cellRef col row1) := by
  have hletters := (colRef_letters col).2.1
  refine List.forall_mem_append.mpr ⟨fun c hc hmem ↦ ?_, digits_plain row1⟩
  have hall : ∀ c ∈ ['"', '<', '&', '\t', '\n', '\r'], c.isAlpha = false := by decide
  exact absurd (hletters c hc).1 (hall c hmem ▸ Bool.false_ne_true)

theorem tagOk_ref {ref : Text} (href : Xml.IsPlain ref) (name : Text) (hname : Xml.isName name = true)
    (more : List (Text × Text)) (hmore : ∀ a ∈ more, Xml.isName a.1 = true ∧ Xml.IsPlain a.2)
    (hnodup : ("r".toList :: more.map Prod.fst).Nodup) : Xml.TagOk name (("r".toList, ref) :: more) where
  name_ok := hname
  attributes_ok := List.forall_mem_cons.mpr ⟨⟨rfl, href⟩, hmore⟩
  nodup := hnodup

theorem tagOk_bare {name : Text} (hname : Xml.isName name = true) : Xml.TagOk name [] :=
  ⟨hname, fun _ h ↦ (nomatch h), List.nodup_nil⟩

theorem writes_cell (value : Cell) (type : Text) (col row1 : ℕ) :
    Xml.Writes (cellXml value type col row1) [cellNode value type col row1] := by
  have href := cellRef_plain col row1
  have htag := tagOk_ref href "c".toList (by decide) [] (fun _ h ↦ (nomatch h)) (by decide)
  cases value with
  | none =>
    have h := Xml.Writes.empty htag
    simpa [Xml.openTag, Xml.attributeText, cellXml, cellNode] using h
  | some v =>
    unfold cellXml cellNode
    dsimp only
    by_cases hnumeric : isNumericCell v type = true
    · have hplain := plain_of_isNumericCell hnumeric
      have hvalue : Xml.decode none v = some v := Xml.decode_of_plain fun h ↦ hplain '&' h (by decide)
      have hv := Xml.Writes.characters (tagOk_bare (show Xml.isName "v".toList = true by decide))
        (fun c hc hmem ↦ hplain c hc (List.mem_append_left ['&', '\r', '\n'] hmem)) hvalue
      have h := Xml.Writes.element htag hv
      rw [if_pos hnumeric, if_pos hnumeric]
      simpa [Xml.openTag, Xml.closeTag, Xml.attributeText, content] using h
    · have htext : Xml.TagOk "t".toList [("xml:space".toList, "preserve".toList)] :=
        ⟨by decide, List.forall_mem_singleton.mpr ⟨by decide, by unfold Xml.IsPlain; decide⟩, by decide⟩
      have hinline := tagOk_ref href "c".toList (by decide) [("t".toList, "inlineStr".toList)]
        (List.forall_mem_singleton.mpr ⟨by decide, by unfold Xml.IsPlain; decide⟩) (by decide)
      have hraw : ∀ c ∈ xmlEscape v, c ∉ ['<', '>'] := by
        intro c hc hmem
        rw [xmlEscape_eq, List.mem_flatMap] at hc
        obtain ⟨d, -, hd⟩ := hc
        exact Xml.not_mem_escape (List.mem_append_left ['\r', '\n'] hmem) (Or.inr hmem) hd
      have hvalue : Xml.decode none (xmlEscape v) = some v := xmlEscape_eq v ▸ Xml.decode_flatMap_escape v
      have hempty : xmlEscape v = [] ↔ v = [] := by
        rw [xmlEscape_eq, List.flatMap_eq_nil_iff]
        refine ⟨fun h ↦ List.eq_nil_iff_forall_not_mem.mpr fun c hc ↦ Xml.escape_ne_nil c (h c hc), ?_⟩
        rintro rfl c hc
        cases hc
      have hv := Xml.Writes.characters htext hraw hvalue
      have h := Xml.Writes.element hinline (Xml.Writes.element (tagOk_bare (show Xml.isName "is".toList = true by decide)) hv)
      rw [if_neg hnumeric, if_neg hnumeric]
      simpa [Xml.openTag, Xml.closeTag, Xml.attributeText, hempty, content] using h

/-! ## Sheets -/

/-- The cells of a sheet row by row, the header first. -/
def tableOf (result : Result) : List (List (Cell × Text)) :=
  headerCells result.columns :: result.rows.map (rowCells result.columns)

def sheetProlog : Text := "<?xml version=\"1.0\" encoding=\"UTF-8\" standalone=\"yes\"?>".toList

def rowsXml (table : List (List (Cell × Text))) : Text := (table.zipIdx 1).flatMap fun r ↦ rowXml r.1 r.2

theorem sheetXml_eq (result : Result) : sheetXml result = sheetHead ++ (rowsXml (tableOf result) ++ sheetTail) := by
  have hshift : (result.rows.map (rowCells result.columns)).zipIdx 2 =
      result.rows.zipIdx.map fun r ↦ (rowCells result.columns r.1, r.2 + 2) := by
    rw [List.zipIdx_eq_map_add, List.zipIdx_map, List.map_map]
    exact List.map_congr_left fun r _ ↦ Prod.ext rfl (Nat.add_comm 2 r.2)
  have hrows : rowsXml (tableOf result) = rowXml (headerCells result.columns) 1 ++
      result.rows.zipIdx.flatMap fun r ↦ rowXml (rowCells result.columns r.1) (r.2 + 2) := by
    rw [rowsXml, tableOf, List.zipIdx_cons, List.flatMap_cons, hshift, List.flatMap_map]
  rw [hrows, List.append_assoc]
  rfl

def rowNode (cells : List (Cell × Text)) (r1 : ℕ) : Xml.Node :=
  .element "row".toList [("r".toList, Nat.toDigits 10 r1)]
    (cells.zipIdx.map fun c ↦ cellNode c.1.1 c.1.2 c.2 r1)

def rowNodes (table : List (List (Cell × Text))) : List Xml.Node := (table.zipIdx 1).map fun r ↦ rowNode r.1 r.2

def namespaceAttribute : Text × Text :=
  ("xmlns".toList, "http://schemas.openxmlformats.org/spreadsheetml/2006/main".toList)

def sheetNode (table : List (List (Cell × Text))) : Xml.Node :=
  .element "worksheet".toList [namespaceAttribute] [.element "sheetData".toList [] (rowNodes table)]

theorem writes_row (cells : List (Cell × Text)) (r1 : ℕ) : Xml.Writes (rowXml cells r1) [rowNode cells r1] := by
  have htag := tagOk_ref (digits_plain r1) "row".toList (by decide) [] (fun _ h ↦ (nomatch h)) (by decide)
  have hcells := Xml.Writes.map (l := cells.zipIdx) fun c _ ↦ writes_cell c.1.1 c.1.2 c.2 r1
  have htext : rowXml cells r1 = Xml.openTag "row".toList [("r".toList, Nat.toDigits 10 r1)] ++
      '>' :: ((cells.zipIdx.flatMap fun c ↦ cellXml c.1.1 c.1.2 c.2 r1) ++ Xml.closeTag "row".toList) := by
    unfold rowXml
    generalize (cells.zipIdx.flatMap fun c ↦ cellXml c.1.1 c.1.2 c.2 r1) = inner
    simp [Xml.openTag, Xml.closeTag, Xml.attributeText]
  rw [htext]
  exact Xml.Writes.element htag hcells

theorem parse_table {table : List (List (Cell × Text))} {text : Text} (hchars : text.all Xml.isXmlChar = true)
    (hends : Xml.lineEnds text = sheetHead ++ (rowsXml table ++ sheetTail)) :
    Xml.parse text = some (sheetNode table) := by
  have hrows := Xml.Writes.map (l := table.zipIdx 1) fun r _ ↦ writes_row r.1 r.2
  have hplain : Xml.IsPlain namespaceAttribute.2 := by
    unfold Xml.IsPlain
    decide +kernel
  have hworksheet : Xml.TagOk "worksheet".toList [namespaceAttribute] :=
    ⟨by decide, List.forall_mem_singleton.mpr ⟨by decide, hplain⟩, by decide⟩
  have h := Xml.Writes.element hworksheet (Xml.Writes.element
    (tagOk_bare (show Xml.isName "sheetData".toList = true by decide)) hrows)
  have hprolog : Xml.steps (.content []) sheetProlog = some (.content [], []) := rfl
  have hhead : sheetHead = sheetProlog ++ (Xml.openTag "worksheet".toList [namespaceAttribute] ++
      '>' :: (Xml.openTag "sheetData".toList [] ++ ['>'])) := by decide +kernel
  have htail : sheetTail = Xml.closeTag "sheetData".toList ++ Xml.closeTag "worksheet".toList := by decide
  refine Xml.parse_of_writes hchars ?_ hprolog h
  rw [hends, hhead, htail, rowsXml]
  simp only [List.append_assoc, List.cons_append, List.nil_append]

/-! ## Characters -/

/-- The text of a cell, nothing for null. -/
def cellChars (c : Cell × Text) : Text := c.1.getD []

theorem all_xmlEscape (v : Text) : (xmlEscape v).all Xml.isXmlChar = v.all Xml.isXmlChar := by
  have hpiece (c : Char) : (Xml.escape c).all Xml.isXmlChar = Xml.isXmlChar c := by
    by_cases hplain : c ∈ ['&', '<', '>', '"', '\'']
    · have hall : ∀ c ∈ ['&', '<', '>', '"', '\''], (Xml.escape c).all Xml.isXmlChar = Xml.isXmlChar c := by decide
      exact hall c hplain
    · rw [Xml.escape_of_plain hplain]
      simp
  rw [xmlEscape_eq, List.all_flatMap]
  exact congrArg _ (funext hpiece)

theorem all_digits (n : ℕ) : (Nat.toDigits 10 n).all Xml.isXmlChar = true := by
  rw [List.all_eq_true]
  intro c hc
  have hdigit := toNat_of_isDigit ((Json.digits_toDigits n).2 c hc)
  have hrange : 0x20 ≤ '0'.toNat ∧ '9'.toNat < 0xFFFE := by decide
  simp [Xml.isXmlChar, show 0x20 ≤ c.toNat by omega, show c.toNat ≠ 0xFFFE by omega, show c.toNat ≠ 0xFFFF by omega]

theorem all_cellRef (col row1 : ℕ) : (cellRef col row1).all Xml.isXmlChar = true := by
  have hletters : (colRef col).all Xml.isXmlChar = true :=
    List.all_eq_true.mpr fun c hc ↦ ((colRef_letters col).2.1 c hc).2
  rw [cellRef, List.all_append, hletters, all_digits, Bool.and_self]

theorem all_cellXml (value : Cell) (type : Text) (col row1 : ℕ) :
    (cellXml value type col row1).all Xml.isXmlChar = (value.getD []).all Xml.isXmlChar := by
  have hpieces : ∀ piece ∈ ["<c r=\"", "\"/>", "\"><v>", "</v></c>",
      "\" t=\"inlineStr\"><is><t xml:space=\"preserve\">", "</t></is></c>"],
      piece.toList.all Xml.isXmlChar = true := by decide +kernel
  simp only [List.forall_mem_cons] at hpieces
  obtain ⟨hopen, hempty, hv, hvEnd, hinline, hinlineEnd, -⟩ := hpieces
  have href := all_cellRef col row1
  unfold cellXml
  cases value with
  | none =>
    dsimp only
    rw [List.all_append, List.all_append, hopen, href, hempty]
    rfl
  | some v =>
    dsimp only
    split_ifs with hnumeric
    · rw [List.all_append, List.all_append, List.all_append, List.all_append, hopen, href, hv, hvEnd]
      simp
    · rw [List.all_append, List.all_append, List.all_append, List.all_append, hopen, href, hinline, hinlineEnd,
        all_xmlEscape]
      simp

theorem all_zipIdx {α : Type*} (l : List α) (n : ℕ) (p : α → Bool) : (l.zipIdx n).all (fun i ↦ p i.1) = l.all p := by
  conv_rhs => rw [← List.zipIdx_map_fst n l, List.all_map]
  rfl

theorem all_rowXml (cells : List (Cell × Text)) (r1 : ℕ) :
    (rowXml cells r1).all Xml.isXmlChar = cells.all fun c ↦ (cellChars c).all Xml.isXmlChar := by
  have hopen : ("<row r=\"".toList).all Xml.isXmlChar = true := by decide
  have hmiddle : ("\">".toList).all Xml.isXmlChar = true := by decide
  have hclose : ("</row>".toList).all Xml.isXmlChar = true := by decide
  unfold rowXml
  rw [List.all_append, List.all_append, List.all_append, List.all_append, hopen, all_digits, hmiddle, hclose,
    List.all_flatMap, ← all_zipIdx cells 0]
  simp only [all_cellXml, Bool.true_and, Bool.and_true]
  rfl

/-- A sheet has only characters of XML when its cells have. -/
theorem all_table (table : List (List (Cell × Text))) :
    (sheetHead ++ (rowsXml table ++ sheetTail)).all Xml.isXmlChar =
      table.all fun cells ↦ cells.all fun c ↦ (cellChars c).all Xml.isXmlChar := by
  have hhead : sheetHead.all Xml.isXmlChar = true := by decide +kernel
  have htail : sheetTail.all Xml.isXmlChar = true := by decide
  rw [List.all_append, List.all_append, hhead, htail, rowsXml, List.all_flatMap, ← all_zipIdx table 1]
  simp only [all_rowXml, Bool.true_and, Bool.and_true]

/-! ## Line ends -/

/-- A table as XML has it, with its line ends as line feeds. -/
def unify (table : List (List (Cell × Text))) : List (List (Cell × Text)) :=
  table.map fun cells ↦ cells.map fun c ↦ (c.1.map Xml.lineEnds, c.2)

theorem not_mem_of_lineEnds {v : Text} (h : '\n' ∉ Xml.lineEnds v) : '\r' ∉ v := by
  fun_induction Xml.lineEnds v with
  | case1 => exact absurd List.mem_cons_self h
  | case2 => exact absurd List.mem_cons_self h
  | case3 c rest _ hc ih =>
    rw [List.mem_cons, not_or] at h
    exact List.not_mem_cons_of_ne_of_not_mem (fun hr ↦ hc hr.symm) (ih h.2)
  | case4 => exact List.not_mem_nil

theorem isNumericCell_lineEnds (v type : Text) : isNumericCell (Xml.lineEnds v) type = isNumericCell v type := by
  by_cases hreturn : '\r' ∈ v
  · have hleft : isNumericCell (Xml.lineEnds v) type = false := by
      by_contra h
      have hplain := plain_of_isNumericCell (Bool.not_eq_false _ ▸ h)
      exact not_mem_of_lineEnds (fun hmem ↦ hplain '\n' hmem (by decide)) hreturn
    have hright : isNumericCell v type = false := by
      by_contra h
      have hplain := plain_of_isNumericCell (Bool.not_eq_false _ ▸ h)
      exact hplain '\r' hreturn (by decide)
    rw [hleft, hright]
  · rw [Xml.lineEnds_of_not_mem hreturn]

theorem lineEnds_cellXml (value : Cell) (type : Text) (col row1 : ℕ) (more : Text) :
    Xml.lineEnds (cellXml value type col row1 ++ more) =
      cellXml (value.map Xml.lineEnds) type col row1 ++ Xml.lineEnds more := by
  have hpieces : ∀ piece ∈ ["<c r=\"", "\"/>", "\"><v>", "</v></c>",
      "\" t=\"inlineStr\"><is><t xml:space=\"preserve\">", "</t></is></c>"], '\r' ∉ piece.toList := by decide +kernel
  simp only [List.forall_mem_cons] at hpieces
  obtain ⟨hopen, hempty, hv, hvEnd, hinline, hinlineEnd, -⟩ := hpieces
  have href : '\r' ∉ cellRef col row1 := by
    intro h
    obtain h | h := List.mem_append.mp h
    · exact absurd ((colRef_letters col).2.1 '\r' h).1 (by decide)
    · exact absurd ((Json.digits_toDigits row1).2 '\r' h) (by decide)
  cases value with
  | none =>
    have hpiece : '\r' ∉ cellXml none type col row1 :=
      fun h ↦ (List.mem_append.mp h).elim hopen fun h ↦ (List.mem_append.mp h).elim href hempty
    exact Xml.lineEnds_append_of_not_mem hpiece more
  | some v =>
    rw [Option.map_some]
    unfold cellXml
    dsimp only
    rw [isNumericCell_lineEnds]
    by_cases hnumeric : isNumericCell v type = true
    · have hreturn : '\r' ∉ v := fun h ↦ plain_of_isNumericCell hnumeric '\r' h (by decide)
      rw [if_pos hnumeric, if_pos hnumeric, Xml.lineEnds_of_not_mem hreturn]
      simp only [List.append_assoc]
      rw [Xml.lineEnds_append_of_not_mem hopen, Xml.lineEnds_append_of_not_mem href,
        Xml.lineEnds_append_of_not_mem hv, Xml.lineEnds_append_of_not_mem hreturn,
        Xml.lineEnds_append_of_not_mem hvEnd]
    · have hhead : ("</t></is></c>".toList ++ more).head? ≠ some '\n' := by
        rw [List.head?_append_of_ne_nil _ (by decide)]
        decide
      rw [if_neg hnumeric, if_neg hnumeric]
      simp only [List.append_assoc]
      rw [Xml.lineEnds_append_of_not_mem hopen, Xml.lineEnds_append_of_not_mem href,
        Xml.lineEnds_append_of_not_mem hinline, Xml.lineEnds_append _ hhead, xmlEscape_eq, xmlEscape_eq,
        Xml.lineEnds_flatMap_escape, Xml.lineEnds_append_of_not_mem hinlineEnd]

/-- Pieces whose line ends are their own affair. -/
theorem lineEnds_flatMap {ι : Type*} {l : List ι} {f g : ι → Text}
    (h : ∀ i more, Xml.lineEnds (f i ++ more) = g i ++ Xml.lineEnds more) (more : Text) :
    Xml.lineEnds (l.flatMap f ++ more) = l.flatMap g ++ Xml.lineEnds more := by
  induction l with
  | nil => rfl
  | cons i l ih => rw [List.flatMap_cons, List.append_assoc, h, ih, List.flatMap_cons, List.append_assoc]

theorem lineEnds_rowXml (cells : List (Cell × Text)) (r1 : ℕ) (more : Text) :
    Xml.lineEnds (rowXml cells r1 ++ more) =
      rowXml (cells.map fun c ↦ (c.1.map Xml.lineEnds, c.2)) r1 ++ Xml.lineEnds more := by
  have hopen : '\r' ∉ "<row r=\"".toList := by decide
  have hmiddle : '\r' ∉ "\">".toList := by decide
  have hclose : '\r' ∉ "</row>".toList := by decide
  have hdigits : '\r' ∉ Nat.toDigits 10 r1 := fun h ↦ absurd ((Json.digits_toDigits r1).2 '\r' h) (by decide)
  unfold rowXml
  simp only [List.append_assoc]
  rw [Xml.lineEnds_append_of_not_mem hopen, Xml.lineEnds_append_of_not_mem hdigits,
    Xml.lineEnds_append_of_not_mem hmiddle,
    lineEnds_flatMap fun (c : (Cell × Text) × ℕ) more ↦ lineEnds_cellXml c.1.1 c.1.2 c.2 r1 more,
    Xml.lineEnds_append_of_not_mem hclose, List.zipIdx_map, List.flatMap_map]
  rfl

theorem lineEnds_table (table : List (List (Cell × Text))) :
    Xml.lineEnds (sheetHead ++ (rowsXml table ++ sheetTail)) = sheetHead ++ (rowsXml (unify table) ++ sheetTail) := by
  have hhead : '\r' ∉ sheetHead := by decide +kernel
  have htail : '\r' ∉ sheetTail := by decide
  unfold rowsXml unify
  rw [Xml.lineEnds_append_of_not_mem hhead,
    lineEnds_flatMap fun (r : List (Cell × Text) × ℕ) more ↦ lineEnds_rowXml r.1 r.2 more,
    Xml.lineEnds_of_not_mem htail, List.zipIdx_map, List.flatMap_map]
  rfl

/-! ## Reading back -/

theorem textContentAll_content (v : Text) : Xml.textContentAll (content v) = v := by
  unfold content
  split_ifs with hempty
  · exact hempty.symm
  · simp [Xml.textContentAll, Xml.Node.textContent]

theorem namedAll_content (wanted v : Text) : Xml.namedAll wanted (content v) = [] := by
  unfold content
  split_ifs
  · rfl
  · rfl

theorem cellValue_cellNode (value : Cell) (type : Text) (col row1 : ℕ) (shared : List Text) :
    cellValue (cellNode value type col row1) shared = value := by
  cases value with
  | none => rfl
  | some v =>
    unfold cellNode
    dsimp only
    by_cases hnumeric : isNumericCell v type = true
    · rw [if_pos hnumeric]
      have htext : cellValue (.element "c".toList [("r".toList, cellRef col row1)]
          [.element "v".toList [] (content v)]) shared = some (Xml.textContentAll (content v)) := rfl
      rw [htext, textContentAll_content]
    · rw [if_neg hnumeric]
      have htext : cellValue (.element "c".toList
          [("r".toList, cellRef col row1), ("t".toList, "inlineStr".toList)] [.element "is".toList []
            [.element "t".toList [("xml:space".toList, "preserve".toList)] (content v)]]) shared =
          some ((Xml.Node.element "t".toList [("xml:space".toList, "preserve".toList)] (content v) ::
            (Xml.namedAll "t".toList (content v) ++ [])).flatMap Xml.Node.textContent) := rfl
      rw [htext, namedAll_content]
      exact congrArg some ((List.append_nil _).trans (textContentAll_content v))

theorem attribute_cellNode (value : Cell) (type : Text) (col row1 : ℕ) :
    (cellNode value type col row1).attribute "r".toList = some (cellRef col row1) := by
  cases value with
  | none => rfl
  | some v =>
    unfold cellNode
    dsimp only
    split_ifs <;> rfl

theorem cellRef_ne_nil (col row1 : ℕ) : cellRef col row1 ≠ [] :=
  List.append_ne_nil_of_left_ne_nil (colRef_letters col).1 _

/-- A cell of the next column goes behind the ones before. -/
theorem placeCell_cellNode (shared : List Text) (arr : List Cell) (value : Cell) (type : Text) (row1 : ℕ) :
    placeCell shared arr (cellNode value type arr.length row1) = arr ++ [value] := by
  have hone : arr.length + 1 - arr.length = 1 := by omega
  unfold placeCell
  dsimp only
  rw [attribute_cellNode, Option.getD_some, if_pos (cellRef_ne_nil _ _), colIndexFromRef_cellRef, hone,
    cellValue_cellNode, List.set_append_right _ _ le_rfl, Nat.sub_self]
  rfl

theorem foldl_placeCell (shared : List Text) (cells : List (Cell × Text)) (row1 : ℕ) (arr : List Cell) :
    ((cells.zipIdx arr.length).map fun c ↦ cellNode c.1.1 c.1.2 c.2 row1).foldl (placeCell shared) arr =
      arr ++ cells.map Prod.fst := by
  induction cells generalizing arr with
  | nil => exact (List.append_nil arr).symm
  | cons c cells ih =>
    have hlength : arr.length + 1 = (arr ++ [c.1]).length := by simp
    rw [List.zipIdx_cons, List.map_cons, List.foldl_cons, placeCell_cellNode, hlength, ih,
      List.append_assoc]
    rfl

theorem named_cellNode (value : Cell) (type : Text) (col row1 : ℕ) :
    (cellNode value type col row1).named "c".toList = [cellNode value type col row1] ∧
      (cellNode value type col row1).named "row".toList = [] := by
  cases value with
  | none => exact ⟨rfl, rfl⟩
  | some v =>
    have hnumber (wanted : Text) : Xml.namedAll wanted [.element "v".toList [] (content v)] =
        (if "v".toList = wanted then [.element "v".toList [] (content v)] else []) ++ [] := by
      simp [Xml.namedAll, Xml.Node.named, namedAll_content]
    have hinline (wanted : Text) (hwanted : wanted ∈ ["c".toList, "row".toList]) (attributes : List (Text × Text)) :
        Xml.namedAll wanted [.element "is".toList [] [.element "t".toList attributes (content v)]] = [] := by
      have hne : "is".toList ≠ wanted ∧ "t".toList ≠ wanted := by
        revert wanted
        decide
      simp only [Xml.namedAll, Xml.Node.named, if_neg hne.1, if_neg hne.2, namedAll_content, List.append_nil]
    unfold cellNode
    dsimp only
    by_cases hnumeric : isNumericCell v type = true
    · rw [if_pos hnumeric, Xml.Node.named, Xml.Node.named, hnumber, hnumber]
      exact ⟨rfl, rfl⟩
    · rw [if_neg hnumeric, Xml.Node.named, Xml.Node.named, hinline _ (by decide), hinline _ (by decide)]
      exact ⟨rfl, rfl⟩

theorem readRow_rowNode (shared : List Text) (cells : List (Cell × Text)) (row1 : ℕ) :
    readRow shared (rowNode cells row1) = cells.map Prod.fst := by
  have hcells : (rowNode cells row1).elements "c".toList =
      cells.zipIdx.map fun c ↦ cellNode c.1.1 c.1.2 c.2 row1 := by
    rw [rowNode, Xml.Node.elements, Xml.namedAll_map, List.map_eq_flatMap]
    exact List.flatMap_congr fun c _ ↦ (named_cellNode _ _ _ _).1
  rw [readRow, hcells]
  exact foldl_placeCell shared cells row1 []

theorem named_sheetNode (table : List (List (Cell × Text))) :
    (sheetNode table).named "row".toList = rowNodes table := by
  have hrow (r : List (Cell × Text) × ℕ) : (rowNode r.1 r.2).named "row".toList = [rowNode r.1 r.2] := by
    have hinner : Xml.namedAll "row".toList (r.1.zipIdx.map fun c ↦ cellNode c.1.1 c.1.2 c.2 r.2) = [] := by
      rw [Xml.namedAll_map, List.flatMap_eq_nil_iff]
      exact fun c _ ↦ (named_cellNode _ _ _ _).2
    rw [rowNode, Xml.Node.named, hinner]
    rfl
  have hrows : Xml.namedAll "row".toList (rowNodes table) = rowNodes table := by
    rw [rowNodes, Xml.namedAll_map, List.map_eq_flatMap]
    exact List.flatMap_congr fun r _ ↦ hrow r
  have hsheet : (sheetNode table).named "row".toList = Xml.namedAll "row".toList (rowNodes table) ++ [] := rfl
  rw [hsheet, List.append_nil, hrows]

theorem foldl_max_le {rows : List (List Cell)} {width : ℕ} (h : ∀ row ∈ rows, row.length = width) {start : ℕ}
    (hstart : start ≤ width) : rows.foldl (fun w row ↦ max w row.length) start ≤ width := by
  induction rows generalizing start with
  | nil => exact hstart
  | cons row rows ih =>
    exact ih (fun r hr ↦ h r (List.mem_cons_of_mem row hr)) (max_le hstart (h row List.mem_cons_self).le)

/-- The rows of one width come back as they are. -/
theorem readGrid_sheetNode {table : List (List (Cell × Text))} {width : ℕ} (hwidth : ∀ cells ∈ table, cells.length = width)
    (shared : List Text) : readGrid (sheetNode table) shared = table.map fun cells ↦ cells.map Prod.fst := by
  have hgrid : (rowNodes table).map (readRow shared) = table.map fun cells ↦ cells.map Prod.fst := by
    have hrows : (rowNodes table).map (readRow shared) = (table.zipIdx 1).map fun r ↦ r.1.map Prod.fst := by
      rw [rowNodes, List.map_map]
      exact List.map_congr_left fun r _ ↦ readRow_rowNode shared r.1 r.2
    calc _ = (table.zipIdx 1).map fun r ↦ r.1.map Prod.fst := hrows
      _ = ((table.zipIdx 1).map Prod.fst).map fun cells ↦ cells.map Prod.fst := by rw [List.map_map]; rfl
      _ = _ := by rw [List.zipIdx_map_fst]
  have hlength : ∀ row ∈ table.map (fun cells : List (Cell × Text) ↦ cells.map Prod.fst), row.length = width := by
    intro row hrow
    obtain ⟨cells, hcells, rfl⟩ := List.mem_map.mp hrow
    rw [List.length_map, hwidth cells hcells]
  unfold readGrid
  dsimp only
  rw [named_sheetNode, hgrid]
  refine (List.map_congr_left fun row hrow ↦ ?_).trans (List.map_id' _)
  have hle := foldl_max_le hlength (Nat.zero_le width)
  have hpad : ∀ n, n ≤ width → n - row.length = 0 := fun n hn ↦ by
    rw [hlength row hrow]
    omega
  rw [hpad _ hle, List.replicate_zero, List.append_nil]

/-- What XML makes of a sheet: nothing with a character that is none of its own, and else its cells with each line
end as a line feed. -/
theorem parse_sheetXml (result : Result) (shared : List Text) :
    (Xml.parse (sheetXml result)).map (readGrid · shared) =
      if (tableOf result).all (fun cells ↦ cells.all fun c ↦ (cellChars c).all Xml.isXmlChar) then
        some ((unify (tableOf result)).map fun cells ↦ cells.map Prod.fst)
      else none := by
  have hwidth : ∀ cells ∈ unify (tableOf result), cells.length = result.columns.length := by
    intro cells hcells
    obtain ⟨row, hrow, rfl⟩ := List.mem_map.mp hcells
    rw [List.length_map]
    obtain rfl | hrow := List.mem_cons.mp hrow
    · exact List.length_map _
    · obtain ⟨r, -, rfl⟩ := List.mem_map.mp hrow
      simp [rowCells, cellsOf]
  rw [sheetXml_eq]
  split_ifs with hall
  · rw [parse_table (by rw [all_table, hall]) (lineEnds_table _), Option.map_some, readGrid_sheetNode hwidth]
  · rw [Xml.parse, if_neg (by rwa [all_table]), Option.map_none]

/-! ## Chunks -/

/-- The sheet as it should be read: the header and, for each row and column, the cell. -/
def gridOf (result : Result) : List (List Cell) :=
  result.columns.map (fun c ↦ some c.name) :: result.rows.map fun row ↦ (cellsOf result.columns row).map Prod.snd

/-- The texts of a sheet: the names of the columns and the cells that are not null. -/
def textsOf (result : Result) : List Text :=
  result.columns.map (·.name) ++ result.rows.flatMap fun row ↦ (cellsOf result.columns row).filterMap Prod.snd

theorem gridOf_eq (result : Result) : gridOf result = (tableOf result).map fun cells ↦ cells.map Prod.fst := by
  unfold gridOf tableOf headerCells rowCells
  rw [List.map_cons, List.map_map, List.map_map]
  refine congrArg₂ List.cons rfl (List.map_congr_left fun row _ ↦ ?_)
  rw [Function.comp_apply, List.map_map]
  rfl

theorem mem_textsOf {result : Result} {v : Text} :
    v ∈ textsOf result ↔ ∃ cells ∈ tableOf result, ∃ c ∈ cells, c.1 = some v := by
  unfold textsOf tableOf headerCells rowCells
  simp only [List.mem_append, List.mem_map, List.mem_flatMap, List.mem_filterMap, List.mem_cons, exists_eq_or_imp]
  constructor
  · rintro (⟨c, hc, rfl⟩ | ⟨row, hrow, c, hc, hv⟩)
    · exact .inl ⟨_, ⟨c, hc, rfl⟩, rfl⟩
    · exact .inr ⟨_, ⟨row, hrow, rfl⟩, ⟨_, List.mem_map_of_mem hc, hv⟩⟩
  · rintro (⟨_, ⟨c, hc, rfl⟩, hv⟩ | ⟨_, ⟨row, hrow, rfl⟩, c, hc, hv⟩)
    · exact .inl ⟨c, hc, Option.some.inj hv⟩
    · obtain ⟨d, hd, rfl⟩ := List.mem_map.mp hc
      exact .inr ⟨row, hrow, d, hd, hv⟩

theorem forall_textsOf {result : Result} {p : Char → Prop} :
    (∀ text ∈ textsOf result, ∀ c ∈ text, p c) ↔
      ∀ cells ∈ tableOf result, ∀ c ∈ cells, ∀ d ∈ cellChars c, p d := by
  constructor
  · intro h cells hcells c hc d hd
    cases hvalue : c.1 with
    | none =>
      rw [cellChars, hvalue] at hd
      cases hd
    | some v =>
      rw [cellChars, hvalue] at hd
      exact h v (mem_textsOf.mpr ⟨cells, hcells, c, hc, hvalue⟩) d hd
  · intro h v hv d hd
    obtain ⟨cells, hcells, c, hc, hvalue⟩ := mem_textsOf.mp hv
    exact h cells hcells c hc d (by rwa [cellChars, hvalue])

theorem flatten_map_utf8 (pieces : List Text) : (pieces.map utf8).flatten = utf8 pieces.flatten := by
  induction pieces with
  | nil => rfl
  | cons piece pieces ih => rw [List.map_cons, List.flatten_cons, ih, List.flatten_cons, utf8_append]

theorem sheetU8_eq (result : Result) (rowsPerChunk : JsNum) :
    sheetU8 result rowsPerChunk = utf8 (sheetHead ++ rowXml (headerCells result.columns) 1) ++
      (utf8 (chunkPieces (sheetPlan result.columns) result.rows rowsPerChunk).flatten ++ utf8 sheetTail) := by
  unfold sheetU8
  dsimp only
  rw [List.flatten_cons, List.flatten_append, flatten_map_utf8, List.flatten_singleton]

theorem utf8_sheetXml (result : Result) :
    utf8 (sheetXml result) = utf8 (sheetHead ++ rowXml (headerCells result.columns) 1) ++
      (utf8 (result.rows.zipIdx.flatMap fun r ↦ rowXml (rowCells result.columns r.1) (r.2 + 2)) ++ utf8 sheetTail) := by
  rw [← utf8_append, ← utf8_append, List.append_assoc]
  rfl

theorem sheetU8_eq_iff (result : Result) (rowsPerChunk : JsNum) :
    sheetU8 result rowsPerChunk = utf8 (sheetXml result) ↔ rowsPerChunk ≠ .nan ∨ result.rows = [] := by
  rw [sheetU8_eq, utf8_sheetXml, List.append_right_inj, List.append_left_inj]
  by_cases hn : rowsPerChunk = .nan
  · rw [hn]
    unfold chunkPieces
    cases hrows : result.rows with
    | nil => exact iff_of_true rfl (.inr rfl)
    | cons row rows =>
      refine iff_of_false (fun hsame ↦ ?_) (by simp)
      have hlost := List.append_eq_nil_iff.mp (not_imp_comm.mp utf8_ne_nil_iff.mpr (not_not.mpr hsame.symm))
      exact absurd hlost.1 (List.cons_ne_nil _ _)
  · have hrows : (chunkPieces (sheetPlan result.columns) result.rows rowsPerChunk).flatten =
        result.rows.zipIdx.flatMap fun r ↦ rowXml (rowCells result.columns r.1) (r.2 + 2) := by
      rw [chunkPieces_flatten _ _ hn]
      refine List.flatMap_congr fun r _ ↦ ?_
      unfold ChunkPlan.rowText
      split_ifs <;> rfl
    rw [hrows]
    exact iff_of_true rfl (.inl hn)

theorem lineEnds_eq_iff (v : Text) : Xml.lineEnds v = v ↔ '\r' ∉ v :=
  ⟨fun h ↦ h ▸ Xml.not_mem_lineEnds v, Xml.lineEnds_of_not_mem⟩

/-- Line ends are all that `unify` changes. -/
theorem unify_fst_iff (table : List (List (Cell × Text))) :
    ((unify table).map fun cells ↦ cells.map Prod.fst) = (table.map fun cells ↦ cells.map Prod.fst) ↔
      ∀ cells ∈ table, ∀ c ∈ cells, '\r' ∉ cellChars c := by
  have hcell (c : Cell × Text) : c.1.map Xml.lineEnds = c.1 ↔ '\r' ∉ cellChars c := by
    obtain ⟨value, type⟩ := c
    cases value with
    | none => exact iff_of_true rfl List.not_mem_nil
    | some v => exact Option.some_inj.trans (lineEnds_eq_iff v)
  unfold unify
  rw [List.map_map, List.map_inj_left]
  refine forall₂_congr fun cells _ ↦ ?_
  rw [Function.comp_apply, List.map_map, List.map_inj_left]
  exact forall₂_congr fun c _ ↦ hcell c

/-- Texts that XML keeps come back as they are. -/
theorem parse_sheetXml_of_clean {result : Result}
    (hclean : ∀ text ∈ textsOf result, ∀ c ∈ text, Xml.isXmlChar c = true ∧ c ≠ '\r') (shared : List Text) :
    (Xml.parse (sheetXml result)).map (readGrid · shared) = some (gridOf result) := by
  rw [forall_textsOf] at hclean
  have hall : (tableOf result).all (fun cells ↦ cells.all fun c ↦ (cellChars c).all Xml.isXmlChar) = true := by
    simp only [List.all_eq_true]
    exact fun cells hcells c hc d hd ↦ (hclean cells hcells c hc d hd).1
  have hreturns : ∀ cells ∈ tableOf result, ∀ c ∈ cells, '\r' ∉ cellChars c :=
    fun cells hcells c hc hreturn ↦ (hclean cells hcells c hc '\r' hreturn).2 rfl
  rw [parse_sheetXml, if_pos hall, gridOf_eq, (unify_fst_iff _).mpr hreturns]

/-- An import of the sheet has the rows of the result, under the trimmed names or names of its own. -/
theorem readSheetPart_sheetXml {result : Result}
    (hclean : ∀ text ∈ textsOf result, ∀ c ∈ text, Xml.isXmlChar c = true ∧ c ≠ '\r') (shared : List Text) :
    (Xml.parse (sheetXml result)).map (readSheetPart · shared) =
      some ⟨(result.columns.map fun c ↦ some c.name).zipIdx.map fun h ↦ headerOf h.1 h.2,
        result.rows.map fun row ↦ (cellsOf result.columns row).map Prod.snd⟩ := by
  obtain ⟨doc, hdoc, hgrid⟩ := Option.map_eq_some_iff.mp (parse_sheetXml_of_clean hclean shared)
  rw [hdoc, Option.map_some, readSheetPart, hgrid]
  rfl

/-- A worksheet in chunks is the worksheet, and it is read as the result, exactly when the chunks have a size or
there are no rows, and no text has a character that XML forbids or a carriage return. -/
theorem sheet_exact_iff (result : Result) (rowsPerChunk : JsNum) (shared : List Text) :
    (sheetU8 result rowsPerChunk = utf8 (sheetXml result) ∧
      (Xml.parse (sheetXml result)).map (readGrid · shared) = some (gridOf result)) ↔
    (rowsPerChunk ≠ .nan ∨ result.rows = []) ∧
      ∀ text ∈ textsOf result, ∀ c ∈ text, Xml.isXmlChar c = true ∧ c ≠ '\r' := by
  rw [sheetU8_eq_iff, and_congr_right_iff]
  refine fun _ ↦ ⟨fun hread ↦ ?_, fun hclean ↦ parse_sheetXml_of_clean hclean shared⟩
  rw [parse_sheetXml, gridOf_eq] at hread
  split_ifs at hread with hall
  have hreturns := (unify_fst_iff _).mp (Option.some.inj hread)
  simp only [List.all_eq_true] at hall
  rw [forall_textsOf]
  exact fun cells hcells c hc d hd ↦ ⟨hall cells hcells c hc d hd, fun hreturn ↦ hreturns cells hcells c hc (hreturn ▸ hd)⟩

/-- A carriage return comes back as a line feed, and with a control character nothing comes back. -/
theorem carriageReturn_lost : (¬ ∀ (result : Result) (rowsPerChunk : JsNum) (shared : List Text),
      sheetU8 result rowsPerChunk = utf8 (sheetXml result) ∧
        (Xml.parse (sheetXml result)).map (readGrid · shared) = some (gridOf result)) ∧
    (Xml.parse (sheetXml ⟨[⟨['n'], "text".toList⟩], [[some ['\r']]]⟩)).map (readGrid · []) =
      some [[some ['n']], [some ['\n']]] ∧
    (Xml.parse (sheetXml ⟨[⟨['n'], "text".toList⟩], [[some ['\x01']]]⟩)).map (readGrid · []) = none := by
  have hreturn : (Xml.parse (sheetXml ⟨[⟨['n'], "text".toList⟩], [[some ['\r']]]⟩)).map (readGrid · []) =
      some [[some ['n']], [some ['\n']]] := by
    rw [parse_sheetXml]
    decide
  refine ⟨fun h ↦ ?_, hreturn, ?_⟩
  · have hsame := (h ⟨[⟨['n'], "text".toList⟩], [[some ['\r']]]⟩ (.infinite false) []).2
    rw [hreturn] at hsame
    exact absurd hsame (by decide)
  · rw [parse_sheetXml]
    decide

end Squaero.Front.Xlsx
