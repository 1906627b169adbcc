import Squaero.Mongo.ExtendedJson

/-!
# Cells written back

The cell that shows a value, as the builder writes it into a new document under the type of its column, and which
values libbson then reads as what they were.
-/

namespace Squaero.Mongo

open Squaero.Lib Squaero.Core Squaero.Drivers Binary64

/-! ## Values -/

/-- The BSON types of the values that a page may hold; the widths of integers are one. -/
inductive Kind
  | string
  | objectId
  | int
  | double
  | bool
  | date
  | document
  | array
  deriving DecidableEq

def Bson.kind : Bson → Option Kind
  | .utf8 _ => some .string
  | .oid _ => some .objectId
  | .int _ => some .int
  | .double _ => some .double
  | .bool _ => some .bool
  | .dateTime _ => some .date
  | .document _ => some .document
  | .array _ => some .array
  | _ => none

def Bson.isNull : Bson → Bool
  | .null => true
  | _ => false

/-- A value of these types, a date of the years 0 to 9999. -/
def Bson.Listed : Bson → Prop
  | .dateTime millis => 0 ≤ (civilOf millis).year ∧ (civilOf millis).year ≤ 9999
  | v => v.kind.isSome = true

variable (lib : LibBson)

/-- What libbson prints of a nested value is JSON that the driver's check accepts, and libbson reads it as the value. -/
def ReadsBack (v : Bson) : Prop :=
  ∃ text, mongoBsonCellText lib v = some text ∧ mongoJsonValid text = true ∧ lib.value text = some v

/-- The values that come back. -/
def Survives (key : Text) : Bson → Prop
  | .utf8 s => '\x00' ∉ s ∧ (key = "_id".toList → s ≠ [] ∧ isHex24 s = false)
  | .oid _ => key = "_id".toList
  | .double (.finite _ _) => True
  | .double _ => False
  | .document fields => ReadsBack lib (.document fields)
  | .array items => ReadsBack lib (.array items)
  | _ => True

/-! ## How a cell is written -/

theorem ObjectId.isHex24 (id : ObjectId) : isHex24 id.hex = true ∧ id.hex.map Char.toLower = id.hex := by
  have hdigit : ∀ c ∈ "0123456789abcdef".toList, isXDigit c = true ∧ c.toLower = c := by decide
  constructor
  · simp only [Mongo.isHex24, id.length_eq, decide_true, Bool.true_and, List.all_eq_true]
    exact fun c hc ↦ (hdigit c (id.lower c hc)).1
  · exact (List.map_congr_left fun c hc ↦ (hdigit c (id.lower c hc)).2).trans (List.map_id _)

/-! ## Nested values -/

theorem betweenBrackets_wrapped {vs : List Json} {inner : Text} (h : Json.Spells (.value (.arr vs)) inner) :
    betweenBrackets ("\x7b \"a\" : ".toList ++ (inner ++ " \x7d".toList)) = some inner := by
  have hshape : ∃ items, inner = '[' :: (items ++ [']']) := by
    cases h with
    | emptyArr => exact ⟨_, rfl⟩
    | arr => exact ⟨_, rfl⟩
  obtain ⟨items, rfl⟩ := hshape
  have hstart : ("\x7b \"a\" : ".toList ++ (('[' :: (items ++ [']'])) ++ " \x7d".toList)).dropWhile (· ≠ '[') =
      ('[' :: items ++ [']']) ++ [' '] ++ ['\x7d'] := by
    simp
  have hend : (('[' :: items ++ [']']) ++ [' '] ++ ['\x7d']).rdropWhile (· ≠ ']') = '[' :: items ++ [']'] := by
    rw [List.rdropWhile_concat_pos _ _ _ (by decide), List.rdropWhile_concat_pos _ _ _ (by decide),
      List.rdropWhile_concat_neg _ _ _ (by decide)]
  unfold betweenBrackets
  dsimp only
  rw [hstart, hend]
  exact if_neg (by simp)

variable {lib : LibBson}

/-- A nested value is shown as JSON. -/
theorem writesValue_nested (hlib : lib.Reads) {v : Bson} (hkind : v.kind = some .document ∨ v.kind = some .array)
    {text : Text} (h : mongoBsonCellText lib v = some text) : Json.WritesValue text := by
  cases v with
  | document fields =>
    rw [mongoBsonCellText, Option.some.injEq] at h
    cases hprint : lib.relaxedJson fields with
    | none =>
      rw [hprint] at h
      exact h ▸ ⟨_, .emptyObj Json.blanks_nil⟩
    | some printed =>
      rw [hprint] at h
      obtain ⟨ms, hms⟩ := hlib.prints fields printed hprint
      exact h ▸ ⟨_, hms⟩
  | array items =>
    rw [mongoBsonCellText, mongoBsonArrayJson, Option.some.injEq] at h
    cases hprint : lib.relaxedJson [("a".toList, .array items)] with
    | none =>
      rw [hprint] at h
      exact h ▸ ⟨_, .emptyArr Json.blanks_nil⟩
    | some printed =>
      rw [hprint] at h
      obtain ⟨vs, inner, hinner, rfl⟩ := hlib.printsArray items printed hprint
      rw [Option.bind_some, betweenBrackets_wrapped hinner] at h
      exact h ▸ ⟨_, hinner⟩
  | _ => simp [Bson.kind] at hkind

/-- What the grammar writes is taken as it stands, if it is valid. -/
theorem jsonNormalize_of_writesValue {text : Text} (h : Json.WritesValue text) :
    jsonNormalize text = if mongoJsonValid text = true then some text else none := by
  obtain ⟨v, hv⟩ := h
  unfold jsonNormalize
  rw [mongoJsonRelax_of_spells hv]

/-! ## What is written -/

section Pieces

variable (lib : LibBson)

/-- The cell of a field with the type of its column. -/
def shown (field : Text × Bson) : ColumnValue × DbcType :=
  ((field.1, mongoBsonCellText lib field.2), mongoBsonTypeToNeutral field.2)

/-- The value that `render_pairs` writes for the cell. -/
def pieceOf (isInsert : Bool) (field : Text × Bson) : Except Text Text :=
  let cell := mongoBsonCellText lib field.2
  let type := mongoBsonTypeToNeutral field.2
  if isInsert ∧ field.1 = "_id".toList ∧ cell.any isHex24 ∧ (type = .null ∨ type = .text) then
    .ok (extended "\"$oid\": " (cell.getD []))
  else renderValue field.1 type cell

theorem renderPair_shown (isInsert : Bool) (field : Text × Bson) :
    renderPair isInsert (shown lib field) = (pieceOf lib isInsert field).map (fieldText field.1) := rfl

/-- A field of a new document that libbson reads as it was. -/
def Comes (field : Text × Bson) : Prop :=
  isWritten true (shown lib field) = true ∧ ∃ piece, pieceOf lib true field = .ok piece ∧ lib.value piece = some field.2

end Pieces

section Piece

variable (key : Text)

theorem pieceOf_of_type {v : Bson} (isInsert : Bool) (type : DbcType) (htype : mongoBsonTypeToNeutral v = type)
    (hnull : type ≠ .null) (htext : type ≠ .text) :
    pieceOf lib isInsert (key, v) = renderValue key type (mongoBsonCellText lib v) := by
  subst htype
  exact if_neg fun h ↦ h.2.2.2.elim hnull htext

theorem isWritten_of_ne {v : Bson} {text : Text} (h : mongoBsonCellText lib v = some text) (hne : text ≠ []) :
    isWritten true (shown lib (key, v)) = true := by
  simp [isWritten, shown, h, hne]

theorem pieceOf_int (n : Int64Value) : pieceOf lib true (key, .int n) = .ok (intText n) := by
  rw [pieceOf_of_type key true .int rfl (by decide) (by decide)]
  exact congrArg Except.ok (if_pos (isInt64Literal_intText n))

theorem pieceOf_bool (b : Bool) : pieceOf lib true (key, .bool b) = .ok (if b then "true" else "false").toList := by
  rw [pieceOf_of_type key true .bool rfl (by decide) (by decide)]
  cases b <;> rfl

theorem pieceOf_date {millis : ℤ} (h : (Bson.dateTime millis).Listed) :
    pieceOf lib true (key, .dateTime millis) = .ok (extended "\"$date\": " (mongoFormatDatetime millis)) := by
  rw [pieceOf_of_type key true .timestamp rfl (by decide) (by decide)]
  exact congrArg Except.ok (if_pos ((isIsoDate_mongoFormatDatetime millis).mpr h))

theorem pieceOf_string (s : Text) :
    pieceOf lib true (key, .utf8 s) =
      .ok (if key = "_id".toList ∧ isHex24 (cString s) = true then extended "\"$oid\": " (cString s)
        else jsString (cString s)) := by
  unfold pieceOf
  simp only [mongoBsonCellText, mongoBsonTypeToNeutral, Option.any_some, Option.getD_some, or_true, and_true,
    true_and, renderValue]
  split_ifs <;> rfl

theorem pieceOf_objectId (id : ObjectId) :
    pieceOf lib true (key, .oid id) =
      .ok (if key = "_id".toList then extended "\"$oid\": " id.hex else jsString id.hex) := by
  unfold pieceOf
  simp only [mongoBsonCellText, mongoBsonTypeToNeutral, Option.any_some, Option.getD_some, or_true, and_true,
    true_and, id.isHex24.1, renderValue]
  split_ifs <;> rfl

theorem pieceOf_nested (hlib : lib.Reads) {v : Bson} (hkind : v.kind = some .document ∨ v.kind = some .array)
    {text : Text} (h : mongoBsonCellText lib v = some text) :
    pieceOf lib true (key, v) =
      if mongoJsonValid text = true then .ok text else .error (errCol "the value is not valid JSON" key) := by
  have htype : mongoBsonTypeToNeutral v = .json := by
    cases v <;> simp_all [Bson.kind, mongoBsonTypeToNeutral]
  have hnorm := jsonNormalize_of_writesValue (writesValue_nested hlib hkind h)
  rw [pieceOf_of_type key true .json htype (by decide) (by decide), h]
  unfold renderValue renderJson
  dsimp only
  rw [hnorm]
  split_ifs <;> rfl

/-- A number of a double column is written as one that is read as a double. -/
theorem pieceOf_finite (hlib : lib.Reads) (negative : Bool) (m : Magnitude) :
    ∃ piece, pieceOf lib true (key, .double (.finite negative m)) = .ok piece ∧ Json.WritesValue piece ∧
      lib.value piece = some (.double (.finite negative m)) := by
  obtain ⟨sign, whole, fraction, exponent, hparts⟩ := numberParts_printfG negative m
  have hnumber := mongoJsonIsNumber_of_parts hparts
  have hdouble := doubleOf_printfG negative m
  have hspells : Json.IsNumber (JsNum.finite negative m).printfG := ⟨_, _, _, _, hparts⟩
  rw [pieceOf_of_type key true .float rfl (by decide) (by decide)]
  by_cases hint : fraction = [] ∧ exponent = []
  · refine ⟨extended "\"$numberDouble\": " (JsNum.finite negative m).printfG, ?_,
      ⟨extendedOf "$numberDouble" _, spells_extended (by decide) _⟩, hlib.numberDouble _ hspells _ _ hdouble⟩
    simp [mongoBsonCellText, renderValue, hnumber, hint]
  · refine ⟨(JsNum.finite negative m).printfG, ?_, ⟨_, .num hspells⟩,
      hlib.double _ _ _ _ _ hparts (by tauto) _ _ hdouble⟩
    have hfalse : (decide (fraction = []) && decide (exponent = [])) = false := by
      simpa using hint
    simp [mongoBsonCellText, renderValue, hnumber, hfalse]

/-- Infinities and what is no number have no JSON number, and are written as strings. -/
theorem pieceOf_notFinite {x : JsNum} (hx : ∀ negative m, x ≠ .finite negative m) :
    pieceOf lib true (key, .double x) = .ok (jsString x.printfG) := by
  have hnot : mongoJsonIsNumber x.printfG = none := by
    cases x with
    | finite negative m => exact absurd rfl (hx negative m)
    | infinite negative => cases negative <;> decide
    | nan => decide
  rw [pieceOf_of_type key true .float rfl (by decide) (by decide)]
  simp [mongoBsonCellText, renderValue, hnot]

end Piece

/-! ## What comes back -/

section Comes

variable (hlib : lib.Reads) {key : Text}

include hlib

theorem comes_string (s : Text) : Comes lib (key, .utf8 s) ↔ Survives lib key (.utf8 s) := by
  unfold Comes Survives
  rw [pieceOf_string]
  simp only [Except.ok.injEq, exists_eq_left']
  have hwritten : isWritten true (shown lib (key, .utf8 s)) = true ↔ (key = "_id".toList → cString s ≠ []) := by
    simp [isWritten, shown, mongoBsonCellText, imp_iff_not_or]
  rw [hwritten, ← cString_eq_self_iff]
  by_cases hid : key = "_id".toList ∧ isHex24 (cString s) = true
  · rw [if_pos hid, hlib.oid _ hid.2 (.ofHex _ hid.2) rfl]
    refine iff_of_false (fun h ↦ by cases h.2) ?_
    rintro ⟨hsame, hplain⟩
    rw [hsame] at hid
    rw [(hplain hid.1).2] at hid
    exact absurd hid.2 Bool.false_ne_true
  · rw [if_neg hid, hlib.jsString, Option.some.injEq, Bson.utf8.injEq]
    constructor
    · rintro ⟨hne, hsame⟩
      rw [hsame] at hne hid
      exact ⟨hsame, fun hkey ↦ ⟨hne hkey, Bool.eq_false_iff.mpr fun hhex ↦ hid ⟨hkey, hhex⟩⟩⟩
    · rintro ⟨hsame, hplain⟩
      rw [hsame]
      exact ⟨fun hkey ↦ (hplain hkey).1, rfl⟩

theorem comes_objectId (id : ObjectId) : Comes lib (key, .oid id) ↔ Survives lib key (.oid id) := by
  have hne : id.hex ≠ [] := fun h ↦ by simpa [h] using id.length_eq
  unfold Comes Survives
  rw [pieceOf_objectId, isWritten_of_ne key rfl hne]
  simp only [Except.ok.injEq, exists_eq_left', true_and]
  by_cases hkey : key = "_id".toList
  · rw [if_pos hkey, hlib.oid _ id.isHex24.1 id id.isHex24.2.symm]
    exact iff_of_true rfl hkey
  · rw [if_neg hkey, hlib.jsString]
    exact iff_of_false (fun h ↦ by cases h) hkey

theorem comes_double (x : JsNum) : Comes lib (key, .double x) ↔ Survives lib key (.double x) := by
  have hne : x.printfG ≠ [] := by
    cases x with
    | finite negative m =>
      obtain ⟨sign, whole, fraction, exponent, hparts⟩ := numberParts_printfG negative m
      exact List.ne_nil_of_length_pos (Json.Spells.num ⟨_, _, _, _, hparts⟩).length_pos
    | infinite negative => cases negative <;> decide
    | nan => decide
  unfold Comes
  rw [isWritten_of_ne key rfl hne]
  by_cases hx : ∀ negative m, x ≠ .finite negative m
  · rw [pieceOf_notFinite key hx]
    refine iff_of_false ?_ ?_
    · rintro ⟨-, piece, hpiece, hvalue⟩
      obtain rfl := Except.ok.inj hpiece
      rw [hlib.jsString] at hvalue
      cases hvalue
    · cases x with
      | finite negative m => exact absurd rfl (hx negative m)
      | infinite negative => exact id
      | nan => exact id
  · push Not at hx
    obtain ⟨negative, m, rfl⟩ := hx
    obtain ⟨piece, hpiece, -, hvalue⟩ := pieceOf_finite key hlib negative m
    exact iff_of_true ⟨rfl, piece, hpiece, hvalue⟩ trivial

theorem comes_nested {v : Bson} (hkind : v.kind = some .document ∨ v.kind = some .array) :
    Comes lib (key, v) ↔ ReadsBack lib v := by
  obtain ⟨text, htext⟩ : ∃ text, mongoBsonCellText lib v = some text := by
    cases v <;> first | exact ⟨_, rfl⟩ | simp [Bson.kind] at hkind
  have hne : text ≠ [] := by
    obtain ⟨w, hw⟩ := writesValue_nested hlib hkind htext
    exact List.ne_nil_of_length_pos hw.length_pos
  unfold Comes ReadsBack
  rw [isWritten_of_ne key htext hne, pieceOf_nested key hlib hkind htext, htext]
  simp only [true_and, Option.some.injEq, exists_eq_left']
  by_cases hvalid : mongoJsonValid text = true
  · simp [hvalid]
  · simp [hvalid]

/-- The fields that come back are those with a value that survives. -/
theorem comes_iff {v : Bson} (hv : v.Listed) : Comes lib (key, v) ↔ Survives lib key v := by
  cases v with
  | utf8 s => exact comes_string hlib s
  | oid id => exact comes_objectId hlib id
  | double x => exact comes_double hlib x
  | document fields => exact comes_nested hlib (.inl rfl)
  | array items => exact comes_nested hlib (.inr rfl)
  | int n =>
    have hne : intText n ≠ [] := by
      obtain ⟨sign, whole, hparts⟩ := numberParts_intText n
      exact List.ne_nil_of_length_pos (Json.Spells.num ⟨_, _, _, _, hparts⟩).length_pos
    obtain ⟨sign, whole, hparts⟩ := numberParts_intText n
    exact iff_of_true ⟨isWritten_of_ne key rfl hne, _, pieceOf_int key n,
      hlib.integer _ _ _ hparts n (integerOf_intText n)⟩ trivial
  | bool b =>
    refine iff_of_true ⟨isWritten_of_ne key rfl ?_, _, pieceOf_bool key b, hlib.bool b⟩ trivial
    cases b <;> decide
  | dateTime millis =>
    obtain ⟨c, -, htext⟩ := exists_tailDigits millis
    have hne : mongoFormatDatetime millis ≠ [] := by
      rw [htext]
      exact List.append_ne_nil_of_right_ne_nil _ (List.cons_ne_nil _ _)
    exact iff_of_true ⟨isWritten_of_ne key rfl hne, _, pieceOf_date key hv,
      hlib.dates _ _ (isoMillis_mongoFormatDatetime hv.1 hv.2)⟩ trivial
  | null | undefined | decimal128 | timestamp | regex | code | binary | minKey | maxKey | exotic => cases hv

omit hlib in
theorem isSome_kind_of_listed {v : Bson} (hv : v.Listed) : v.kind.isSome = true := by
  cases v <;> first | rfl | exact hv

/-- Whatever is written is JSON. -/
theorem writesValue_of_pieceOf {v : Bson} (hv : v.Listed) {piece : Text} (h : pieceOf lib true (key, v) = .ok piece) :
    Json.WritesValue piece := by
  have hnested (hkind : v.kind = some .document ∨ v.kind = some .array) {text : Text}
      (htext : mongoBsonCellText lib v = some text) : Json.WritesValue piece := by
    rw [pieceOf_nested key hlib hkind htext] at h
    split_ifs at h
    obtain rfl := Except.ok.inj h
    exact writesValue_nested hlib hkind htext
  cases v with
  | utf8 s =>
    rw [pieceOf_string] at h
    obtain rfl := Except.ok.inj h
    split_ifs
    · exact ⟨extendedOf "$oid" _, spells_extended (by decide) _⟩
    · exact ⟨_, spells_jsString _⟩
  | oid id =>
    rw [pieceOf_objectId] at h
    obtain rfl := Except.ok.inj h
    split_ifs
    · exact ⟨extendedOf "$oid" _, spells_extended (by decide) _⟩
    · exact ⟨_, spells_jsString _⟩
  | double x =>
    by_cases hx : ∀ negative m, x ≠ .finite negative m
    · rw [pieceOf_notFinite key hx] at h
      obtain rfl := Except.ok.inj h
      exact ⟨_, spells_jsString _⟩
    · push Not at hx
      obtain ⟨negative, m, rfl⟩ := hx
      obtain ⟨piece', hpiece, hwrites, -⟩ := pieceOf_finite key hlib negative m
      rw [hpiece] at h
      exact Except.ok.inj h ▸ hwrites
  | document fields => exact hnested (.inl rfl) rfl
  | array items => exact hnested (.inr rfl) rfl
  | int n =>
    obtain ⟨sign, whole, hparts⟩ := numberParts_intText n
    rw [pieceOf_int] at h
    obtain rfl := Except.ok.inj h
    exact ⟨_, .num ⟨_, _, _, _, hparts⟩⟩
  | bool b =>
    rw [pieceOf_bool] at h
    obtain rfl := Except.ok.inj h
    exact ⟨_, .bool b⟩
  | dateTime millis =>
    rw [pieceOf_date key hv] at h
    obtain rfl := Except.ok.inj h
    exact ⟨extendedOf "$date" _, spells_extended (by decide) _⟩
  | null | undefined | decimal128 | timestamp | regex | code | binary | minKey | maxKey | exotic => cases hv

end Comes

/-! ## Types of columns -/

/-- The type of a column of values of one BSON type. -/
def Kind.column : Kind → DbcType
  | .string | .objectId => .text
  | .int => .int
  | .double => .float
  | .bool => .bool
  | .date => .timestamp
  | .document | .array => .json

theorem mongoBsonTypeToNeutral_of_kind {v : Bson} {kind : Kind} (h : v.kind = some kind) :
    mongoBsonTypeToNeutral v = kind.column := by
  cases v <;> cases h <;> rfl

theorem isSome_mongoBsonCellText {v : Bson} (hv : v.kind.isSome = true) : (mongoBsonCellText lib v).isSome = true := by
  cases v <;> first | rfl | cases hv

end Squaero.Mongo
