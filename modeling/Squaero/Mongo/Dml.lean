import Mathlib.Algebra.Group.Int.Defs
import Mathlib.Data.List.Forall2
import Squaero.Drivers.Dml
import Squaero.Lib.Traversal
import Squaero.Mongo.Commands
import Squaero.Mongo.JsonRelax

/-!
# Document changes

`drivers/mongodb/src/utils/dml.c`: a neutral row change as one `insertOne`, `updateOne` or `deleteOne`. The
command reads back as the change: its arguments are the documents that the cells stand for.
-/

namespace Squaero.Mongo

open Squaero.Lib Squaero.Core Squaero.Drivers

/-- A row whose collection name is a C string. -/
structure MongoRow extends DmlRow where
  cString : ∀ name ∈ table, '\x00' ∉ name

def isHex24 (s : Text) : Bool := s.length = 24 && s.all isXDigit

/-- What is left of a text behind a shape, whose `d` is a digit. -/
def fitsShape : Text → Text → Option Text
  | [], s => some s
  | _ :: _, [] => none
  | d :: shape, c :: s =>
    if if d = 'd' then c.isDigit else c = d then fitsShape shape s else none

def isIsoDate (s : Text) : Bool :=
  match fitsShape "dddd-dd-ddTdd:dd:dd".toList s with
  | none => false
  | some ('.' :: rest) => rest.head?.any Char.isDigit && rest.dropWhile Char.isDigit = ['Z']
  | some rest => rest = ['Z']

/-- The integer of a literal without fraction and exponent. -/
def integerOf : Text → ℤ
  | '-' :: digits => -Json.natOfDigits digits
  | digits => Json.natOfDigits digits

/-- A JSON integer that `strtoll` does not find out of range. -/
def isInt64Literal (s : Text) : Bool :=
  mongoJsonIsNumber s = some true && -2 ^ 63 ≤ integerOf s && integerOf s ≤ 2 ^ 63 - 1

def isBoolLiteral (s : Text) : Bool := s = "true".toList || s = "false".toList

/-- `json_normalize`. -/
def jsonNormalize (text : Text) : Option Text :=
  let strict := mongoJsonRelax text
  if mongoJsonValid strict then some strict else none

def startsContainer (s : Text) : Bool :=
  let first := (skipSp s).head?
  first = some '{' || first = some '['

/-- `set_err_col`. -/
def errCol (msg : String) (col : Text) : Text := msg.toList ++ (" (field \"".toList ++ (col ++ "\")".toList))

/-- A value of Extended JSON. -/
def extended (key : String) (s : Text) : Text := '{' :: (key.toList ++ (jsString s ++ ['}']))

/-- `render_json`. -/
def renderJson (col text : Text) : Except Text Text :=
  match jsonNormalize text with
  | none => .error (errCol "the value is not valid JSON" col)
  | some norm => .ok norm

/-- `render_value`. -/
def renderValue (col : Text) (type : DbcType) : Option Text → Except Text Text
  | none => .ok "null".toList
  | some text =>
    match type with
    | .int => .ok (if isInt64Literal text then text else jsString text)
    | .float =>
      match mongoJsonIsNumber text with
      | some true => .ok (extended "\"$numberDouble\": " text)
      | some false => .ok text
      | none => .ok (jsString text)
    | .bool =>
      if isBoolLiteral text then .ok text
      else if text = ['1'] then .ok "true".toList
      else if text = ['0'] then .ok "false".toList
      else .ok (jsString text)
    | .date | .timestamp => .ok (if isIsoDate text then extended "\"$date\": " text else jsString text)
    | .json => renderJson col text
    | .null =>
      if isInt64Literal text || mongoJsonIsNumber text = some false || isBoolLiteral text then .ok text
      else if startsContainer text then .ok ((jsonNormalize text).getD (jsString text))
      else .ok (jsString text)
    | .text | .blob | .time => .ok (jsString text)

/-- `push_alt`. -/
def pushAlt (col value : Text) : Text := '{' :: (jsString col ++ (": ".toList ++ (value ++ ['}'])))

/-- Every BSON type that the text of a key could stand for. -/
def keyAlternatives (val : Text) : List Text :=
  (if isHex24 val then [extended "\"$oid\": " val] else []) ++
    (if isIsoDate val then [extended "\"$date\": " val] else []) ++
    (if isInt64Literal val || (mongoJsonIsNumber val).isSome then [val] else []) ++
    (if isBoolLiteral val then [val] else []) ++ [jsString val]

/-- Documents in an array under an operator. -/
def operatorOf (name : String) (docs : List Text) : Text :=
  '{' :: (name.toList ++ (": [".toList ++ (", ".toList.intercalate docs ++ "]".toList))) ++ ['}']

/-- `render_cond`. -/
def renderCond : ColumnValue → Except Text Text
  | (col, none) => .ok (pushAlt col "null".toList)
  | (col, some val) =>
    if startsContainer val then
      match jsonNormalize val with
      | none => .error (errCol "the key value is not valid JSON" col)
      | some norm => .ok (pushAlt col norm)
    else
      match (keyAlternatives val).map (pushAlt col) with
      | [alt] => .ok alt
      | alts => .ok (operatorOf "\"$or\"" alts)

/-- `render_filter`. -/
def renderFilter (row : MongoRow) : Except Text Text :=
  match row.where_ with
  | [] =>
    .error "no key to identify the document (refusing to change every document)".toList
  | [term] => renderCond term
  | terms => (terms.mapM renderCond).map (operatorOf "\"$and\"")

/-- The set columns with `type_at`. -/
def MongoRow.typedCells (row : MongoRow) : List (ColumnValue × DbcType) :=
  row.set.zip (row.setTypes.getD (List.replicate row.set.length .null))

/-- What `render_pairs` writes: an update leaves `_id` alone, and an insert leaves `NULL` and an empty `_id`
to the server. -/
def isWritten (isInsert : Bool) (item : ColumnValue × DbcType) : Bool :=
  let isId := item.1.1 = "_id".toList
  if isInsert then !(item.1.2 = none ∨ isId ∧ item.1.2 = some []) else !isId

def renderPair (isInsert : Bool) (item : ColumnValue × DbcType) : Except Text Text :=
  let col := item.1.1
  let isNewId := isInsert ∧ col = "_id".toList ∧ item.1.2.any isHex24 ∧ (item.2 = .null ∨ item.2 = .text)
  let value := if isNewId then .ok (extended "\"$oid\": " (item.1.2.getD [])) else renderValue col item.2 item.1.2
  value.map fun value ↦ jsString col ++ (": ".toList ++ value)

/-- `render_pairs`. -/
def renderPairs (isInsert : Bool) (row : MongoRow) : Except Text (List Text) :=
  (row.typedCells.filter (isWritten isInsert)).mapM (renderPair isInsert)

/-- `mongo_build_dml`. -/
def mongoBuildDml (kind : DmlKind) : Option MongoRow → Except Text Text
  | none => .error "collection name is required".toList
  | some row =>
    match row.table with
    | none | some [] => .error "collection name is required".toList
    | some table =>
      match kind with
      | .insert => do
        let pairs ← renderPairs true row
        .ok (collRef table ++ (".insertOne(".toList ++ ('{' :: (", ".toList.intercalate pairs ++ ['}']) ++ [')'])))
      | .update => do
        let filter ← renderFilter row
        let pairs ← renderPairs false row
        if pairs = [] then .error "no fields to update (_id cannot be changed)".toList
        else
          .ok (collRef table ++ (".updateOne(".toList ++ (filter ++ (", ".toList ++
            ('{' :: ("\"$set\": ".toList ++ ('{' :: (", ".toList.intercalate pairs ++ ['}']) ++ ['}'])) ++
              [')'])))))
      | .delete => do
        let filter ← renderFilter row
        .ok (collRef table ++ (".deleteOne(".toList ++ (filter ++ [')'])))
      | .other _ => .error "unknown modification kind".toList

/-! ## What the cells stand for -/

/-- The value of a JSON cell, which may be written as mongosh does. -/
def relaxedValue (text : Text) : Json := (Json.read (mongoJsonRelax text)).getD .null

def numberOf (text : Text) : Json := .num (Json.numberValue text)

def boolOf (text : Text) : Json := .bool (text = "true".toList)

/-- A value that Extended JSON writes as an object. -/
def extendedOf (key : String) (text : Text) : Json := .obj [(key.toList, .str text)]

/-- The value of a cell of a column. -/
def cellValue (type : DbcType) : Option Text → Json
  | none => .null
  | some text =>
    match type with
    | .int => if isInt64Literal text then numberOf text else .str text
    | .float =>
      match mongoJsonIsNumber text with
      | some true => extendedOf "$numberDouble" text
      | some false => numberOf text
      | none => .str text
    | .bool =>
      if isBoolLiteral text then boolOf text
      else if text = ['1'] then .bool true
      else if text = ['0'] then .bool false
      else .str text
    | .date | .timestamp => if isIsoDate text then extendedOf "$date" text else .str text
    | .json => relaxedValue text
    | .null =>
      if isInt64Literal text || mongoJsonIsNumber text = some false then numberOf text
      else if isBoolLiteral text then boolOf text
      else if startsContainer text ∧ mongoJsonValid (mongoJsonRelax text) then relaxedValue text
      else .str text
    | .text | .blob | .time => .str text

/-- A field of a document; the text of a new `_id` may be that of an ObjectId. -/
def fieldOf (isInsert : Bool) (item : ColumnValue × DbcType) : Text × Json :=
  let col := item.1.1
  let isNewId := isInsert ∧ col = "_id".toList ∧ item.1.2.any isHex24 ∧ (item.2 = .null ∨ item.2 = .text)
  (col, if isNewId then extendedOf "$oid" (item.1.2.getD []) else cellValue item.2 item.1.2)

/-- The values that the text of a key could stand for. -/
def keyValues (val : Text) : List Json :=
  (if isHex24 val then [extendedOf "$oid" val] else []) ++
    (if isIsoDate val then [extendedOf "$date" val] else []) ++
    (if isInt64Literal val || (mongoJsonIsNumber val).isSome then [numberOf val] else []) ++
    (if isBoolLiteral val then [boolOf val] else []) ++ [.str val]

/-- The filter of one key column. -/
def termOf : ColumnValue → Json
  | (col, none) => .obj [(col, .null)]
  | (col, some val) =>
    if startsContainer val then .obj [(col, relaxedValue val)]
    else
      match (keyValues val).map fun v ↦ Json.obj [(col, v)] with
      | [term] => term
      | terms => .obj [("$or".toList, .arr terms)]

/-- The filter of a row's key. -/
def filterOf (row : MongoRow) : Json :=
  match row.where_ with
  | [term] => termOf term
  | terms => .obj [("$and".toList, .arr (terms.map termOf))]

/-- The arguments of a command whose fields are `fields`. -/
def documentsWith (kind : DmlKind) (row : MongoRow) (fields : List (Text × Json)) : List Json :=
  match kind with
  | .insert => [.obj fields]
  | .update => [filterOf row, .obj [("$set".toList, .obj fields)]]
  | .delete => [filterOf row]
  | .other _ => []

/-- The fields that a change writes. -/
def writtenFields (isInsert : Bool) (row : MongoRow) : List (Text × Json) :=
  (row.typedCells.filter (isWritten isInsert)).map (fieldOf isInsert)

/-! ## What the cells are written as -/

theorem number_of_isNumber {text : Text} {isInt : Bool} (h : mongoJsonIsNumber text = some isInt) :
    Json.Spells (.value (numberOf text)) text := by
  obtain ⟨⟨isInt', rest⟩, hscan, hrest⟩ := Option.bind_eq_some_iff.mp h
  obtain ⟨hnil, _⟩ := Option.ite_none_right_eq_some.mp hrest
  obtain ⟨number, hnumber, heq⟩ := scanNumber_sound hscan
  obtain rfl : text = number := by simpa [hnil] using heq
  exact .num hnumber

theorem number_of_isInt64Literal {text : Text} (h : isInt64Literal text = true) :
    Json.Spells (.value (numberOf text)) text := by
  simp only [isInt64Literal, Bool.and_eq_true, decide_eq_true_eq] at h
  exact number_of_isNumber h.1.1

theorem bool_of_isBoolLiteral {text : Text} (h : isBoolLiteral text = true) :
    Json.Spells (.value (boolOf text)) text := by
  simp only [isBoolLiteral, Bool.or_eq_true, decide_eq_true_eq] at h
  rcases h with rfl | rfl
  · exact .bool true
  · exact .bool false

theorem spells_jsonNormalize {text norm : Text} (h : jsonNormalize text = some norm) :
    Json.Spells (.padded (relaxedValue text)) norm := by
  obtain ⟨hvalid, heq⟩ := Option.ite_none_right_eq_some.mp h
  obtain rfl := Option.some.inj heq
  obtain ⟨v, hv⟩ := spells_of_mongoJsonValid hvalid
  rwa [relaxedValue, Json.read_of_spells hv]

theorem spells_member (col : Text) {v : Json} {piece : Text} (h : Json.Spells (.padded v) piece) :
    Json.Spells (.member col v) (jsString col ++ (": ".toList ++ piece)) := by
  have hpair := Json.Spells.pair Json.blanks_nil (body_jsString col) Json.blanks_nil
    (h.behind nofun Json.blanks_space)
  rw [Json.ofUnits_toNat] at hpair
  simpa [jsString] using hpair

theorem spells_extended {written key : String} (hkey : written.toList = jsString key.toList ++ ": ".toList)
    (text : Text) : Json.Spells (.value (extendedOf key text)) (extended written text) := by
  have hmember := spells_member key.toList (spells_jsString text).toPadded
  have hobj := Json.Spells.obj (.member hmember)
  unfold extended extendedOf
  rw [hkey]
  simpa using hobj

theorem renderValue_spells {col : Text} {type : DbcType} {val : Option Text} {piece : Text}
    (h : renderValue col type val = .ok piece) : Json.Spells (.padded (cellValue type val)) piece := by
  cases val with
  | none =>
    obtain rfl := Except.ok.inj h
    exact Json.Spells.null.toPadded
  | some text =>
    have hstring := (spells_jsString text).toPadded
    cases type with
    | text | blob | time =>
      obtain rfl := Except.ok.inj h
      exact hstring
    | int =>
      obtain rfl := Except.ok.inj h
      unfold cellValue
      dsimp only
      split_ifs with hint
      · exact (number_of_isInt64Literal hint).toPadded
      · exact hstring
    | float =>
      unfold renderValue cellValue at *
      dsimp only at *
      cases hnumber : mongoJsonIsNumber text with
      | none =>
        rw [hnumber] at h
        obtain rfl := Except.ok.inj h
        exact hstring
      | some isInt =>
        rw [hnumber] at h
        cases isInt with
        | true =>
          obtain rfl := Except.ok.inj h
          exact (spells_extended (by decide) text).toPadded
        | false =>
          obtain rfl := Except.ok.inj h
          exact (number_of_isNumber hnumber).toPadded
    | bool =>
      unfold renderValue cellValue at *
      dsimp only at *
      split_ifs at h ⊢ with hbool hone hzero
      · obtain rfl := Except.ok.inj h
        exact (bool_of_isBoolLiteral hbool).toPadded
      · obtain rfl := Except.ok.inj h
        exact (Json.Spells.bool true).toPadded
      · obtain rfl := Except.ok.inj h
        exact (Json.Spells.bool false).toPadded
      · obtain rfl := Except.ok.inj h
        exact hstring
    | date | timestamp =>
      obtain rfl := Except.ok.inj h
      unfold cellValue
      dsimp only
      split_ifs
      · exact (spells_extended (by decide) text).toPadded
      · exact hstring
    | json =>
      unfold renderValue renderJson at h
      dsimp only at h
      split at h
      · exact absurd h nofun
      · next norm hnorm =>
        obtain rfl := Except.ok.inj h
        exact spells_jsonNormalize hnorm
    | null =>
      unfold renderValue at h
      unfold cellValue
      dsimp only at h ⊢
      by_cases hnumber : (isInt64Literal text || mongoJsonIsNumber text = some false) = true
      · rw [hnumber, Bool.true_or, if_pos rfl] at h
        obtain rfl := Except.ok.inj h
        rw [if_pos hnumber]
        rw [Bool.or_eq_true, decide_eq_true_eq] at hnumber
        exact (hnumber.elim number_of_isInt64Literal number_of_isNumber).toPadded
      rw [Bool.not_eq_true] at hnumber
      rw [hnumber, Bool.false_or] at h
      rw [hnumber, if_neg Bool.false_ne_true]
      by_cases hbool : isBoolLiteral text = true
      · rw [if_pos hbool] at h ⊢
        obtain rfl := Except.ok.inj h
        exact (bool_of_isBoolLiteral hbool).toPadded
      rw [if_neg hbool] at h ⊢
      by_cases hcontainer : startsContainer text = true
      · rw [if_pos hcontainer] at h
        obtain rfl := Except.ok.inj h
        cases hnorm : jsonNormalize text with
        | none =>
          have hvalid : ¬ mongoJsonValid (mongoJsonRelax text) = true := fun hvalid ↦ by
            simp [jsonNormalize, hvalid] at hnorm
          rw [if_neg fun h ↦ hvalid h.2]
          exact hstring
        | some norm =>
          have hvalid := (Option.ite_none_right_eq_some.mp hnorm).1
          rw [if_pos ⟨hcontainer, hvalid⟩]
          exact spells_jsonNormalize hnorm
      · rw [if_neg hcontainer] at h
        obtain rfl := Except.ok.inj h
        rw [if_neg fun h ↦ hcontainer h.1]
        exact hstring

theorem spells_pushAlt (col : Text) {v : Json} {piece : Text} (h : Json.Spells (.padded v) piece) :
    Json.Spells (.value (.obj [(col, v)])) (pushAlt col piece) := by
  have hobj := Json.Spells.obj (.member (spells_member col h))
  unfold pushAlt
  simpa using hobj

theorem spells_operatorOf {name key : String} (hname : name.toList = jsString key.toList) {vs : List Json}
    {docs : List Text} (h : List.Forall₂ (fun v doc ↦ Json.Spells (.padded v) doc) vs docs) (hne : vs ≠ []) :
    Json.Spells (.value (.obj [(key.toList, .arr vs)])) (operatorOf name docs) := by
  have harr := Json.Spells.arr (Json.spells_items h hne)
  have hobj := Json.Spells.obj (.member (spells_member key.toList harr.toPadded))
  unfold operatorOf
  rw [hname]
  simpa using hobj

/-- What could stand under a condition, and how it is written. -/
theorem forall₂_option {c : Bool} {v : Json} {piece : Text} (h : c = true → Json.Spells (.padded v) piece) :
    List.Forall₂ (fun v piece ↦ Json.Spells (.padded v) piece) (if c then [v] else [])
      (if c then [piece] else []) := by
  cases c with
  | true => exact .cons (h rfl) .nil
  | false => exact .nil

theorem spells_keyAlternatives (val : Text) :
    List.Forall₂ (fun v piece ↦ Json.Spells (.padded v) piece) (keyValues val) (keyAlternatives val) := by
  have hnumber (h : (isInt64Literal val || (mongoJsonIsNumber val).isSome) = true) :
      Json.Spells (.padded (numberOf val)) val := by
    rw [Bool.or_eq_true, Option.isSome_iff_exists] at h
    obtain hint | ⟨isInt, hsome⟩ := h
    · exact (number_of_isInt64Literal hint).toPadded
    · exact (number_of_isNumber hsome).toPadded
  unfold keyValues keyAlternatives
  refine List.rel_append ?_ (.cons (spells_jsString val).toPadded .nil)
  refine List.rel_append ?_ (forall₂_option fun h ↦ (bool_of_isBoolLiteral h).toPadded)
  refine List.rel_append ?_ (forall₂_option hnumber)
  exact List.rel_append (forall₂_option fun _ ↦ (spells_extended (by decide) val).toPadded)
    (forall₂_option fun _ ↦ (spells_extended (by decide) val).toPadded)

/-- A text that writes a document. -/
def IsDocument (v : Json) (doc : Text) : Prop := ∃ ms, v = .obj ms ∧ Json.Spells (.value (.obj ms)) doc

theorem IsDocument.toPadded {v : Json} {doc : Text} (h : IsDocument v doc) : Json.Spells (.padded v) doc := by
  obtain ⟨ms, rfl, hdoc⟩ := h
  exact hdoc.toPadded

theorem renderCond_spells {term : ColumnValue} {doc : Text} (h : renderCond term = .ok doc) :
    IsDocument (termOf term) doc := by
  obtain ⟨col, val⟩ := term
  cases val with
  | none =>
    obtain rfl := Except.ok.inj h
    exact ⟨_, rfl, spells_pushAlt col Json.Spells.null.toPadded⟩
  | some val =>
    unfold renderCond at h
    unfold termOf
    dsimp only at h ⊢
    split_ifs at h ⊢ with hcontainer
    · split at h
      · exact absurd h nofun
      · next norm hnorm =>
        obtain rfl := Except.ok.inj h
        exact ⟨_, rfl, spells_pushAlt col (spells_jsonNormalize hnorm)⟩
    · have halts : List.Forall₂ IsDocument ((keyValues val).map fun v ↦ .obj [(col, v)])
          ((keyAlternatives val).map (pushAlt col)) := by
        rw [List.forall₂_map_left_iff, List.forall₂_map_right_iff]
        exact (spells_keyAlternatives val).imp fun v piece hv ↦ ⟨_, rfl, spells_pushAlt col hv⟩
      have hne : (keyValues val).map (fun v ↦ Json.obj [(col, v)]) ≠ [] := by simp [keyValues]
      generalize (keyValues val).map (fun v ↦ Json.obj [(col, v)]) = terms at halts hne ⊢
      generalize (keyAlternatives val).map (pushAlt col) = docs at halts h
      cases halts with
      | nil => exact absurd rfl hne
      | cons hterm hterms =>
        cases hterms with
        | nil =>
          obtain rfl := Except.ok.inj h
          exact hterm
        | cons hterm' hterms =>
          obtain rfl := Except.ok.inj h
          refine ⟨_, rfl, spells_operatorOf (by decide) ?_ (List.cons_ne_nil _ _)⟩
          exact (List.Forall₂.cons hterm (.cons hterm' hterms)).imp fun _ _ h ↦ h.toPadded

/-- The filter of an accepted row is a document. -/
theorem renderFilter_spells {row : MongoRow} {doc : Text} (h : renderFilter row = .ok doc) :
    IsDocument (filterOf row) doc := by
  unfold renderFilter at h
  unfold filterOf
  cases hwhere : row.where_ with
  | nil =>
    rw [hwhere] at h
    exact absurd h nofun
  | cons term terms =>
    rw [hwhere] at h
    cases terms with
    | nil => exact renderCond_spells h
    | cons term' terms =>
      cases hdocs : (term :: term' :: terms).mapM renderCond with
      | error e =>
        simp only [hdocs] at h
        exact absurd h nofun
      | ok docs =>
        simp only [hdocs] at h
        obtain rfl := Except.ok.inj h
        refine ⟨_, rfl, spells_operatorOf (by decide) ?_ (by simp)⟩
        rw [List.forall₂_map_left_iff]
        exact (Traversal.forall₂_of_mapM hdocs).imp fun term doc hterm ↦ (renderCond_spells hterm).toPadded

theorem renderPair_spells {isInsert : Bool} {item : ColumnValue × DbcType} {piece : Text}
    (h : renderPair isInsert item = .ok piece) :
    Json.Spells (.member (fieldOf isInsert item).1 (fieldOf isInsert item).2) piece := by
  unfold renderPair at h
  unfold fieldOf
  dsimp only at h ⊢
  split_ifs at h ⊢ with hid
  · obtain rfl := Except.ok.inj h
    exact spells_member _ (spells_extended (by decide) _).toPadded
  · cases hvalue : renderValue item.1.1 item.2 item.1.2 with
    | error e =>
      rw [hvalue] at h
      exact absurd h nofun
    | ok value =>
      rw [hvalue] at h
      obtain rfl := Except.ok.inj h
      exact spells_member _ (renderValue_spells hvalue)

theorem renderPairs_spells {isInsert : Bool} {row : MongoRow} {pairs : List Text}
    (h : renderPairs isInsert row = .ok pairs) :
    Json.Spells (.value (.obj (writtenFields isInsert row))) ('{' :: (", ".toList.intercalate pairs ++ ['}'])) := by
  refine Json.spells_obj ?_
  unfold writtenFields
  rw [List.forall₂_map_left_iff]
  exact (Traversal.forall₂_of_mapM h).imp fun item piece hpiece ↦ renderPair_spells hpiece

/-- The second document of an update. -/
theorem isDocument_set {fields : List (Text × Json)} {doc : Text}
    (h : Json.Spells (.value (.obj fields)) doc) :
    IsDocument (.obj [("$set".toList, .obj fields)]) ('{' :: ("\"$set\": ".toList ++ (doc ++ ['}']))) := by
  have hkey : jsString "$set".toList ++ ": ".toList = "\"$set\": ".toList := by decide
  have hobj := Json.Spells.obj (.member (spells_member "$set".toList h.toPadded))
  rw [← hkey]
  exact ⟨_, rfl, by simpa using hobj⟩

/-! ## Reading a command back -/

theorem insertOne_onCollection : OnCollection ⟨"insertOne", .insertOne, true, 1, "dd".toList⟩ :=
  ⟨⟨by decide, by decide⟩, by decide, rfl, by decide⟩

theorem updateOne_onCollection : OnCollection ⟨"updateOne", .updateOne, true, 2, "dud".toList⟩ :=
  ⟨⟨by decide, by decide⟩, by decide, rfl, by decide⟩

theorem deleteOne_onCollection : OnCollection ⟨"deleteOne", .deleteOne, true, 1, "dd".toList⟩ :=
  ⟨⟨by decide, by decide⟩, by decide, rfl, by decide⟩

/-- A query that is nothing but a method with arguments on a collection. -/
def callOn (op : Op) (name : Text) (args : List Text) : Query := { op := op, collection := some name, args := args }

section

variable {m : MethodDef} (hm : OnCollection m) {name : Text} (hname : name ≠ []) (hnul : '\x00' ∉ name)
  {v v' : Json} {doc doc' : Text} (h : IsDocument v doc)

include hm hname hnul h

theorem mongoQueryParse_one {shapes : Text} (hshapes : m.shapes = 'd' :: shapes) (hmin : m.minArgs = 1) :
    mongoQueryParse (collRef name ++ '.' :: (m.name.toList ++ '(' :: (doc ++ [')']))) =
      if v.depth < stackSize then .ok (callOn m.op name [doc])
      else syntaxError "unbalanced parentheses" := by
  obtain ⟨ms, rfl, hdoc⟩ := h
  have hcall := mongoQueryParse_call hm (refersTo_collRef hname hnul) (passes_of_spells hdoc)
  by_cases hdepth : (Json.obj ms).depth < stackSize
  · rw [if_pos hdepth]
    calc
      _ = parseGeneric m (splitArgs doc [')']) { op := m.op, collection := some name } :=
        hcall.trans (if_pos hdepth)
      _ = parseGeneric m (some [doc]) { op := m.op, collection := some name } := by
        rw [splitArgs_one hdoc (Nat.le_of_lt hdepth)]
      _ = _ := parseGeneric_one hdoc _ hshapes hmin
  · rw [if_neg hdepth]
    exact hcall.trans (if_neg hdepth)

theorem mongoQueryParse_two (h' : IsDocument v' doc') {shapes : Text}
    (hshapes : m.shapes = 'd' :: 'u' :: shapes) (hmin : m.minArgs = 2) :
    mongoQueryParse (collRef name ++ '.' :: (m.name.toList ++ '(' :: (doc ++ ", ".toList ++ doc' ++ [')']))) =
      if v.depth < stackSize ∧ v'.depth < stackSize then .ok (callOn m.op name [doc, doc'])
      else syntaxError "unbalanced parentheses" := by
  obtain ⟨ms, rfl, hdoc⟩ := h
  obtain ⟨ms', rfl, hdoc'⟩ := h'
  have hcomma : Passes 0 ", ".toList := passes_ordinary (by decide)
  have hbody := ((passes_of_spells hdoc).append hcomma).append (passes_of_spells hdoc')
  have hcall := mongoQueryParse_call hm (refersTo_collRef hname hnul) hbody
  have hroom : max (max (Json.obj ms).depth 0) (Json.obj ms').depth + 1 ≤ stackSize ↔
      (Json.obj ms).depth < stackSize ∧ (Json.obj ms').depth < stackSize := by
    omega
  by_cases hdepth : (Json.obj ms).depth < stackSize ∧ (Json.obj ms').depth < stackSize
  · rw [if_pos hdepth]
    calc
      _ = parseGeneric m (splitArgs (doc ++ ", ".toList ++ doc') [')']) { op := m.op, collection := some name } :=
        hcall.trans (if_pos (hroom.mpr hdepth))
      _ = parseGeneric m (some [doc, ' ' :: doc']) { op := m.op, collection := some name } := by
        rw [splitArgs_two hdoc (Nat.le_of_lt hdepth.1) hdoc' (Nat.le_of_lt hdepth.2)]
      _ = _ := parseGeneric_two hdoc _ hdoc' hshapes (.inr rfl) hmin.le
  · rw [if_neg hdepth]
    exact hcall.trans (if_neg (mt hroom.mp hdepth))

end

def opOf : DmlKind → Option Op
  | .insert => some .insertOne
  | .update => some .updateOne
  | .delete => some .deleteOne
  | .other _ => none

/-- The parser takes `text` for the change to the row's collection, with nothing else to it and with these
documents for arguments. -/
def RoundTrip (kind : DmlKind) (row : MongoRow) (documents : List Json) (text : Text) : Prop :=
  ∃ op name args, opOf kind = some op ∧ row.table = some name ∧
    mongoQueryParse text = .ok (callOn op name args) ∧ args.map Json.read = documents.map some

/-- The documents of a change: the fields that it writes, and the filter of its key. -/
def documents (kind : DmlKind) (row : MongoRow) : List Json :=
  documentsWith kind row (writtenFields (kind = .insert) row)

/-- What the builder gives for an accepted row: a command on its collection, whose arguments write the
documents of the change. -/
theorem mongoBuildDml_parses {kind : DmlKind} {row : MongoRow} {text : Text}
    (h : mongoBuildDml kind (some row) = .ok text) :
    ∃ op name args, opOf kind = some op ∧ row.table = some name ∧ args.map Json.read = (documents kind row).map some ∧
      mongoQueryParse text =
        if ∀ document ∈ documents kind row, document.depth < stackSize then .ok (callOn op name args)
        else syntaxError "unbalanced parentheses" := by
  have hread {v : Json} {doc : Text} (hdoc : IsDocument v doc) : Json.read doc = some v :=
    Json.read_of_spells hdoc.toPadded
  obtain ⟨c, name, htable⟩ : ∃ c name, row.table = some (c :: name) := by
    unfold mongoBuildDml at h
    cases htable : row.table with
    | none =>
      simp only [htable] at h
      exact absurd h nofun
    | some table =>
      cases table with
      | nil =>
        simp only [htable] at h
        exact absurd h nofun
      | cons c name => exact ⟨c, name, rfl⟩
  have hnul := row.cString _ htable
  have hname : c :: name ≠ [] := List.cons_ne_nil _ _
  unfold mongoBuildDml at h
  simp only [htable] at h
  cases kind with
  | insert =>
    cases hpairs : renderPairs true row with
    | error e =>
      rw [hpairs] at h
      exact absurd h nofun
    | ok pairs =>
      rw [hpairs] at h
      obtain rfl := Except.ok.inj h
      have hdoc : IsDocument (.obj (writtenFields true row)) _ := ⟨_, rfl, renderPairs_spells hpairs⟩
      have hparse := mongoQueryParse_one insertOne_onCollection hname hnul hdoc rfl rfl
      refine ⟨.insertOne, c :: name, ['{' :: (", ".toList.intercalate pairs ++ ['}'])], rfl, htable, ?_, ?_⟩
      · exact congrArg (fun v ↦ [v]) (hread hdoc)
      · simpa [documents, documentsWith] using hparse
  | update =>
    cases hfilter : renderFilter row with
    | error e =>
      rw [hfilter] at h
      exact absurd h nofun
    | ok filter =>
      cases hpairs : renderPairs false row with
      | error e =>
        rw [hfilter, hpairs] at h
        exact absurd h nofun
      | ok pairs =>
        rw [hfilter, hpairs] at h
        by_cases hnil : pairs = []
        · exact absurd (h.symm.trans (if_pos hnil)) nofun
        obtain rfl := Except.ok.inj ((if_neg hnil).symm.trans h)
        have hdoc := renderFilter_spells hfilter
        have hset := isDocument_set (renderPairs_spells hpairs)
        have hparse := mongoQueryParse_two updateOne_onCollection hname hnul hdoc hset rfl rfl
        refine ⟨.updateOne, c :: name,
          [filter, '{' :: ("\"$set\": ".toList ++ ('{' :: (", ".toList.intercalate pairs ++ ['}']) ++ ['}']))],
          rfl, htable, ?_, ?_⟩
        · exact congrArg₂ (fun v v' ↦ [v, v']) (hread hdoc) (hread hset)
        · simpa [documents, documentsWith] using hparse
  | delete =>
    cases hfilter : renderFilter row with
    | error e =>
      rw [hfilter] at h
      exact absurd h nofun
    | ok filter =>
      rw [hfilter] at h
      obtain rfl := Except.ok.inj h
      have hdoc := renderFilter_spells hfilter
      have hparse := mongoQueryParse_one deleteOne_onCollection hname hnul hdoc rfl rfl
      refine ⟨.deleteOne, c :: name, [filter], rfl, htable, ?_, ?_⟩
      · exact congrArg (fun v ↦ [v]) (hread hdoc)
      · simpa [documents, documentsWith] using hparse
  | other kind => exact absurd h nofun

/-- Of a change whose documents nest no deeper than the parser's stack allows inside the call, the parser
reads every field that is written, the operator and the key filter. -/
theorem mongoBuildDml_roundTrip {kind : DmlKind} {row : MongoRow} {text : Text}
    (h : mongoBuildDml kind (some row) = .ok text)
    (hdepth : ∀ document ∈ documents kind row, document.depth < stackSize) :
    RoundTrip kind row (documents kind row) text := by
  obtain ⟨op, name, args, hop, htable, hread, hparse⟩ := mongoBuildDml_parses h
  exact ⟨op, name, args, hop, htable, hparse.trans (if_pos hdepth), hread⟩

/-- A counter that is raised to one. -/
def countOnce : MongoRow where
  schema := none
  table := some "t".toList
  set := [("a".toList, some "1".toList)]
  where_ := [("_id".toList, some "7".toList)]
  setTypes := none
  parallel := nofun
  cString := by decide

theorem mongoBuildDml_roundTrip_countOnce :
    RoundTrip .update countOnce
      [.obj [("$or".toList, .arr [.obj [("_id".toList, .num (Json.numberValue ['7']))],
          .obj [("_id".toList, .str ['7'])]])],
        .obj [("$set".toList, .obj [("a".toList, .num (Json.numberValue ['1']))])]]
      ("db.t.updateOne(\x7b\"$or\": [\x7b\"_id\": 7\x7d, \x7b\"_id\": \"7\"\x7d]\x7d, ".toList ++
        "\x7b\"$set\": \x7b\"a\": 1\x7d\x7d)".toList) :=
  mongoBuildDml_roundTrip (by decide) (by decide)

/-- A new document with a `NULL` cell. -/
def nullCell : MongoRow where
  schema := none
  table := some "t".toList
  set := [("a".toList, none)]
  where_ := []
  setTypes := none
  parallel := nofun
  cString := by decide

/-- The field of a `NULL` cell is not in the document that is inserted. -/
theorem nullCell_left_out :
    ∃ text, mongoBuildDml .insert (some nullCell) = .ok text ∧
      ¬ RoundTrip .insert nullCell
        (documentsWith .insert nullCell (nullCell.typedCells.map (fieldOf true))) text := by
  refine ⟨"db.t.insertOne(\x7b\x7d)".toList, by decide, ?_⟩
  rintro ⟨op, name, args, hop, htable, hparse, hread⟩
  have hargs : mongoQueryParse "db.t.insertOne(\x7b\x7d)".toList =
      .ok (callOn .insertOne ['t'] ["\x7b\x7d".toList]) := by decide
  rw [hargs] at hparse
  obtain rfl : ["\x7b\x7d".toList] = args := congrArg Query.args (Except.ok.inj hparse)
  have hfields : [some (Json.obj [])] = [some (Json.obj [(['a'], .null)])] := hread
  simp at hfields

end Squaero.Mongo
