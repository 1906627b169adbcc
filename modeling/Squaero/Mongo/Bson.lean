import Squaero.Core.Driver
import Squaero.Lib.PrintfG
import Squaero.Mongo.ValueFmt

/-!
# BSON values and their cells

`drivers/mongodb/src/utils/bson_types.c`, and of `docs.c` how a value is rendered as the text of a cell and how a
page of documents becomes a table. What libbson prints and reads is a parameter.
-/

namespace Squaero.Mongo

open Squaero.Lib Squaero.Core

/-- The 24 lower-case hexadecimal digits of an ObjectId. -/
structure ObjectId where
  hex : Text
  length_eq : hex.length = 24
  lower : ∀ c ∈ hex, c ∈ "0123456789abcdef".toList

/-- The values of `int64_t`. -/
abbrev Int64Value := { n : ℤ // -2 ^ 63 ≤ n ∧ n ≤ 2 ^ 63 - 1 }

/-- A value. The two widths of integers are one, and `exotic` stands for the deprecated types. -/
inductive Bson
  | null
  | undefined
  | utf8 (s : Text)
  | int (n : Int64Value)
  | double (x : JsNum)
  | bool (b : Bool)
  | oid (id : ObjectId)
  | dateTime (millis : ℤ)
  | decimal128 (text : Text)
  | timestamp (t i : ℕ)
  | regex (pattern options : Text)
  | code (s : Text)
  | document (fields : List (Text × Bson))
  | array (items : List Bson)
  | binary (bytes : List UInt8)
  | minKey
  | maxKey
  | exotic (name data : Text)

abbrev BsonFields := List (Text × Bson)

/-- `mongo_bson_type_to_neutral` -/
def mongoBsonTypeToNeutral : Bson → DbcType
  | .int _ => .int
  | .double _ | .decimal128 _ => .float
  | .bool _ => .bool
  | .dateTime _ | .timestamp _ _ => .timestamp
  | .binary _ => .blob
  | .document _ | .array _ => .json
  | .null | .undefined => .null
  | .utf8 _ | .oid _ | .regex _ _ | .code _ | .minKey | .maxKey | .exotic _ _ => .text

/-- What the driver uses of libbson. -/
structure LibBson where
  /-- `bson_as_relaxed_extended_json`, unless it fails -/
  relaxedJson : BsonFields → Option Text
  /-- The value that `bson_new_from_json` reads a member of a document as, from the text of the value. -/
  value : Text → Option Bson

/-! ## Cells -/

/-- `%d` -/
def intText (n : ℤ) : Text := if n < 0 then '-' :: Nat.toDigits 10 n.natAbs else Nat.toDigits 10 n.natAbs

/-- From the first to the last bracket, `strchr` and `strrchr`. -/
def betweenBrackets (json : Text) : Option Text :=
  let fromStart := json.dropWhile (· ≠ '[')
  let toEnd := fromStart.rdropWhile (· ≠ ']')
  if toEnd = [] then none else some toEnd

variable (lib : LibBson)

/-- `mongo_bson_array_json` -/
def mongoBsonArrayJson (items : List Bson) : Option Text :=
  (lib.relaxedJson [("a".toList, .array items)]).bind betweenBrackets

def hexByte (b : UInt8) : Text := [(b.toNat / 16).digitChar, (b.toNat % 16).digitChar]

/-- `mongo_bson_cell_text`; none is the NULL of SQL, and an owned copy is used as a C string. -/
def mongoBsonCellText : Bson → Option Text
  | .null | .undefined => none
  | .utf8 s => some (cString s)
  | .int n => some (intText n)
  | .double x => some x.printfG
  | .bool b => some (if b then "true" else "false").toList
  | .oid id => some id.hex
  | .dateTime millis => some (mongoFormatDatetime millis)
  | .decimal128 text => some text
  | .timestamp t i => some (Nat.toDigits 10 t ++ ',' :: Nat.toDigits 10 i)
  | .regex pattern options => some ('/' :: (pattern ++ '/' :: options))
  | .code s => some (cString s)
  | .array items => some ((mongoBsonArrayJson lib items).getD "[]".toList)
  | .document fields => some ((lib.relaxedJson fields).getD "\x7b\x7d".toList)
  | .binary bytes => some (bytes.flatMap hexByte)
  | .minKey => some "$minKey".toList
  | .maxKey => some "$maxKey".toList
  | .exotic _ _ => some []

/-! ## Pages -/

/-- `mongo_columns_observe`: `_id` is hoisted. -/
def mongoColumnsObserve (names : List Text) (name : Text) : List Text :=
  if name ∈ names then names
  else if name = "_id".toList ∧ names ≠ [] then name :: names
  else names ++ [name]

def columnUnion (docs : List BsonFields) : List Text :=
  docs.flatten.foldl (fun names field ↦ mongoColumnsObserve names field.1) []

/-- A cell set; a later one of the same column takes the place of an earlier one. -/
def setCell (names : List Text) (cells : List (Option Text)) (field : Text × Bson) : List (Option Text) :=
  cells.set (names.idxOf field.1) (mongoBsonCellText lib field.2)

/-- A column gets the type of its first value that is not null. -/
def setType (names : List Text) (types : List DbcType) (field : Text × Bson) : List DbcType :=
  let idx := names.idxOf field.1
  if (mongoBsonCellText lib field.2).isSome ∧ types[idx]? = some .null then
    types.set idx (mongoBsonTypeToNeutral field.2)
  else types

/-- The columns with their types, and the rows. -/
structure MongoResult where
  names : List Text
  types : List DbcType
  rows : List (List (Option Text))

/-- `mongo_result_from_docs` -/
def mongoResultFromDocs (docs : List BsonFields) : MongoResult :=
  let names := columnUnion docs
  { names := names
    types := docs.flatten.foldl (setType lib names) (List.replicate names.length .null)
    rows := docs.map fun doc ↦ doc.foldl (setCell lib names) (List.replicate names.length none) }

end Squaero.Mongo
