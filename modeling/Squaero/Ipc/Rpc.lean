import Mathlib.Data.Rat.Cast.Order
import Mathlib.Tactic.Linarith
import Squaero.Core.Query
import Squaero.Ipc.Utf8
import Squaero.Lib.Json

/-!
# Requests and responses

What the handlers of `core/src/ipc` share: error codes, the parameters they read, connection ids and
the JSON of a page. The texts of the core are the bytes of its C strings, those cJSON reads included,
and the value of a number is the double cJSON has for it.
-/

namespace Squaero.Ipc

open Squaero.Lib Squaero.Core

def ipcErrParams : ℤ := -32602

def ipcErrInternal : ℤ := -32603

def ipcErrConn : ℤ := -32000

def ipcErrUnsupported : ℤ := -32001

def ipcErrNotFound : ℤ := -32002

def ipcErrQuery : ℤ := -32003

/-- The error of a response. -/
structure IpcError where
  code : ℤ
  message : Text
  deriving DecidableEq, Repr

/-- `ipc_status_to_code`. -/
def ipcStatusToCode : Status → ℤ
  | .ok => 0
  | .conn => ipcErrConn
  | .query => ipcErrQuery
  | .unsupported => ipcErrUnsupported
  | .param => ipcErrParams
  | .nomem => ipcErrInternal
  | .abi => ipcErrInternal

/-- The error of a failed operation, with `fallback` where it left no text. -/
def failureError (fallback : String) (failure : Status × Text) : IpcError :=
  ⟨ipcStatusToCode failure.1, if failure.2 = [] then fallback.toList else failure.2⟩

def unknownConn : IpcError := ⟨ipcErrNotFound, "unknown connection id".toList⟩

/-! ## Parameters -/

/-- `cJSON_GetObjectItemCaseSensitive`. -/
def field (params : Option Json) (name : String) : Option Json :=
  match params with
  | some (.obj members) => Json.getItem members name.toList
  | _ => none

/-- `valueint`: the value cut to a whole number within the range of `int`. -/
def valueInt (value : ℚ) : ℤ :=
  if (intMax : ℚ) ≤ value then intMax
  else if value ≤ -(intMax : ℚ) - 1 then -(intMax : ℤ) - 1
  else value.num.tdiv value.den

/-- A number that is whole, fits an `int` and is at least `least`. -/
def wholeNumber (least : ℕ) : Json → Option ℕ
  | .num value =>
    if value = valueInt value ∧ (least : ℤ) ≤ valueInt value then some (valueInt value).toNat
    else none
  | _ => none

theorem wholeNumber_ge {least number : ℕ} {item : Json} (h : wholeNumber least item = some number) :
    least ≤ number := by
  cases item with
  | num value =>
    rw [wholeNumber] at h
    split at h
    next hvalue =>
      cases h
      omega
    next => cases h
  | _ => cases h

theorem valueInt_natCast {number : ℕ} (hmax : number ≤ intMax) : valueInt (number : ℚ) = number := by
  rw [valueInt]
  split
  next hlarge =>
    have hge : intMax ≤ number := by exact_mod_cast hlarge
    rw [le_antisymm hmax hge]
  next =>
    have hpos : ¬ (number : ℚ) ≤ -(intMax : ℚ) - 1 := by
      have hnumber : (0 : ℚ) ≤ number := Nat.cast_nonneg _
      have hintMax : (0 : ℚ) ≤ intMax := Nat.cast_nonneg _
      linarith
    rw [if_neg hpos, Rat.num_natCast, Rat.den_natCast, Nat.cast_one, Int.tdiv_one]

/-- A whole number in the range of `int` is read as it is. -/
theorem wholeNumber_natCast {least number : ℕ} (hleast : least ≤ number) (hmax : number ≤ intMax) :
    wholeNumber least (.num number) = some number := by
  rw [wholeNumber, valueInt_natCast hmax]
  exact (if_pos ⟨by norm_cast, by exact_mod_cast hleast⟩).trans (by rw [Int.toNat_natCast])

def digitOf (c : Char) : ℕ := c.toNat - '0'.toNat

/-- The digits of an id read so far, or none past `INT_MAX`. -/
def parseDigits (value : ℕ) : Text → Option ℕ
  | [] => some value
  | c :: rest =>
    if !c.isDigit then none
    else if (intMax - digitOf c) / 10 < value then none
    else parseDigits (value * 10 + digitOf c) rest

/-- `ipc_conn_id_parse`. -/
def ipcConnIdParse (s : Text) : Option ℕ :=
  match s with
  | 'c' :: c :: rest =>
    match parseDigits 0 (c :: rest) with
    | some value => if value < 1 then none else some value
    | none => none
  | _ => none

/-- `ipc_conn_id_format`. -/
def ipcConnIdFormat (id : ℕ) : Text := 'c' :: Nat.toDigits 10 id

/-- `ipc_query_conn_id`, which the handlers of connections and transactions spell out. -/
def ipcConnId (params : Option Json) : Except IpcError ℕ :=
  match field params "connId" with
  | some (.str s) =>
    match ipcConnIdParse s with
    | some id => .ok id
    | none => .error ⟨ipcErrParams, "malformed connId".toList⟩
  | _ => .error ⟨ipcErrParams, "params.connId (string) is required".toList⟩

/-! ## Pages -/

/-- `ipc_type_name`. -/
def ipcTypeName : DbcType → String
  | .int => "int"
  | .float => "float"
  | .bool => "bool"
  | .text => "text"
  | .blob => "blob"
  | .date => "date"
  | .time => "time"
  | .timestamp => "timestamp"
  | .json => "json"
  | .null => "null"

def cellJson : Option Text → Json
  | none => .null
  | some text => .str (ipcUtf8String text)

def rowJson (row : Row) : Json := .arr (row.map cellJson)

def columnJson (column : Column) : Json :=
  .obj [("name".toList, .str (ipcUtf8String column.name)),
    ("type".toList, .str (ipcTypeName column.type).toList)]

/-- The members of `ipc_result_to_json`. -/
def resultMembers (r : Result) : List (Text × Json) :=
  [("columns".toList, .arr (r.columns.map columnJson)),
    ("rows".toList, .arr (r.rows.map rowJson)),
    ("truncated".toList, .bool r.truncated),
    ("rowsAffected".toList, .num r.rowsAffected)]

/-- `ipc_page_to_json`. -/
def ipcPageToJson (r : Result) (cursorOpen : Bool) : Json :=
  .obj (resultMembers r ++ if cursorOpen then [("cursor".toList, .bool true)] else [])

section Page

variable (r : Result) (cursorOpen : Bool)

@[simp]
theorem field_cursor_page :
    field (some (ipcPageToJson r cursorOpen)) "cursor" =
      if cursorOpen then some (.bool true) else none := by
  cases cursorOpen <;> rfl

end Page

/-! ## Ids are read back -/

theorem parseDigits_append (value : ℕ) (s t : Text) :
    parseDigits value (s ++ t) = (parseDigits value s).bind (parseDigits · t) := by
  induction s generalizing value with
  | nil => rfl
  | cons c s ih =>
    rw [List.cons_append, parseDigits, parseDigits]
    split
    next => rfl
    next =>
      split
      next => rfl
      next => exact ih _

theorem parseDigits_digitChar {value digit : ℕ} (hdigit : digit < 10)
    (hmax : value * 10 + digit ≤ intMax) :
    parseDigits value [digit.digitChar] = some (value * 10 + digit) := by
  have hchar : ∀ d < 10, (Nat.digitChar d).isDigit ∧ digitOf (Nat.digitChar d) = d := by decide
  obtain ⟨hisDigit, hvalue⟩ := hchar digit hdigit
  have hroom : ¬ (intMax - digit) / 10 < value := by omega
  rw [parseDigits, hvalue, if_neg (by simp [hisDigit]), if_neg hroom, parseDigits]

theorem parseDigits_toDigits {n : ℕ} (hn : n ≤ intMax) :
    parseDigits 0 (Nat.toDigits 10 n) = some n := by
  induction n using Nat.strongRecOn with
  | ind n ih =>
    rcases Nat.lt_or_ge n 10 with hsmall | hlarge
    · rw [Nat.toDigits_of_lt_base hsmall, parseDigits_digitChar hsmall (by omega), Nat.zero_mul,
        Nat.zero_add]
    · rw [Nat.toDigits_of_base_le (by omega) hlarge, parseDigits_append,
        ih (n / 10) (by omega) (by omega), Option.bind_some,
        parseDigits_digitChar (Nat.mod_lt _ (by omega)) (by omega), Nat.div_add_mod']

/-- The id `conn.open` writes is the one the other methods read. -/
theorem ipcConnIdParse_format {id : ℕ} (hpos : 1 ≤ id) (hmax : id ≤ intMax) :
    ipcConnIdParse (ipcConnIdFormat id) = some id := by
  have hdigits := parseDigits_toDigits hmax
  cases hlist : Nat.toDigits 10 id with
  | nil => exact absurd hlist Nat.toDigits_ne_nil
  | cons c rest =>
    rw [hlist] at hdigits
    simp only [ipcConnIdFormat, ipcConnIdParse, hlist, hdigits]
    rw [if_neg (by omega)]

end Squaero.Ipc
