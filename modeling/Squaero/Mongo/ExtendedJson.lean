import Squaero.Lib.JsonSplit
import Squaero.Mongo.DateText
import Squaero.Mongo.JsonComplete

/-!
# Extended JSON

What libbson reads and prints of Extended JSON, as far as the driver relies on it, and how a document is read that was
written part by part.
-/

namespace Squaero.Mongo

open Squaero.Lib Squaero.Lib.Calendar Squaero.Core Binary64

/-! ## libbson -/

/-- The double of the text of a number. -/
def doubleOf : Text → JsNum
  | '-' :: s => decimalNumber true s
  | s => decimalNumber false s

/-- What libbson reads the values of Extended JSON as, and that it prints JSON. -/
structure LibBson.Reads (lib : LibBson) : Prop where
  null : lib.value "null".toList = some .null
  bool : ∀ b : Bool, lib.value (if b then "true" else "false").toList = some (.bool b)
  string : ∀ body s, Json.Body body (s.map Char.toNat) → lib.value ('"' :: (body ++ ['"'])) = some (.utf8 s)
  integer : ∀ text sign whole, Json.NumberParts text sign whole [] [] → ∀ n : Int64Value, integerOf text = n →
    lib.value text = some (.int n)
  double : ∀ text sign whole fraction exponent, Json.NumberParts text sign whole fraction exponent →
    fraction ≠ [] ∨ exponent ≠ [] → ∀ negative m, doubleOf text = .finite negative m →
      lib.value text = some (.double (.finite negative m))
  numberDouble : ∀ text, Json.IsNumber text → ∀ negative m, doubleOf text = .finite negative m →
    lib.value (extended "\"$numberDouble\": " text) = some (.double (.finite negative m))
  oid : ∀ text, isHex24 text = true → ∀ id : ObjectId, id.hex = text.map Char.toLower →
    lib.value (extended "\"$oid\": " text) = some (.oid id)
  dates : lib.ReadsDates
  prints : ∀ fields text, lib.relaxedJson fields = some text → ∃ ms, Json.Spells (.value (.obj ms)) text
  printsArray : ∀ items text, lib.relaxedJson [("a".toList, .array items)] = some text →
    ∃ vs inner, Json.Spells (.value (.arr vs)) inner ∧ text = "\x7b \"a\" : ".toList ++ (inner ++ " \x7d".toList)

theorem LibBson.Reads.jsString {lib : LibBson} (h : lib.Reads) (s : Text) : lib.value (jsString s) = some (.utf8 s) :=
  h.string _ s (body_jsString s)

/-- A document is read member by member. -/
def LibBson.readDocument (lib : LibBson) (text : Text) : Option BsonFields :=
  (Json.membersOf text).bind fun members ↦ members.mapM fun m ↦ (lib.value m.2).map fun v ↦ (m.1, v)

/-- A field of a document as the builder writes it. -/
def fieldText (key value : Text) : Text := jsString key ++ (": ".toList ++ value)

theorem writesMember_fieldText (key : Text) {value : Text} (h : Json.WritesValue value) :
    Json.WritesMember (key, value) (fieldText key value) where
  value := h
  text_eq := ⟨_, _, body_jsString key, (Json.ofUnits_toNat key).symm, by simp [fieldText, jsString]⟩

/-- The members of a document that was written field by field. -/
theorem membersOf_fields {members : List (Text × Text)} (h : ∀ m ∈ members, Json.WritesValue m.2) :
    Json.membersOf ('{' :: (", ".toList.intercalate (members.map fun m ↦ fieldText m.1 m.2) ++ ['}'])) =
      some members := by
  apply Json.membersOf_intercalate
  rw [List.forall₂_map_right_iff, List.forall₂_same]
  exact fun m hm ↦ writesMember_fieldText m.1 (h m hm)

/-! ## Numbers -/

theorem doubleOf_of_head {text : Text} (h : text.head? ≠ some '-') : doubleOf text = decimalNumber false text := by
  unfold doubleOf
  split
  · exact absurd rfl h
  · rfl

theorem head?_printfG (m : Magnitude) : m.printfG.head? ≠ some '-' := by
  obtain ⟨whole, fraction, suffix, x, hparts, -, -⟩ := m.exists_parts_printfG
  obtain ⟨c, more, hcons⟩ := List.exists_cons_of_ne_nil hparts.isWhole.1
  have hdigit := hparts.isWhole.2 c (hcons ▸ .head _)
  have hhead : m.printfG.head? = some c := by
    rw [hparts.text_eq, pointed, hcons]
    split_ifs <;> rfl
  intro hminus
  rw [hhead] at hminus
  exact absurd (Option.some.inj hminus ▸ hdigit) (by decide)

/-- A finite double is the double of its text. -/
theorem doubleOf_printfG (negative : Bool) (m : Magnitude) :
    doubleOf (JsNum.finite negative m).printfG = .finite negative m := by
  cases negative with
  | true => exact decimalNumber_printfG true m
  | false => exact (doubleOf_of_head (head?_printfG m)).trans (decimalNumber_printfG false m)

theorem numberParts_printfG (negative : Bool) (m : Magnitude) :
    ∃ sign whole fraction exponent, Json.NumberParts (JsNum.finite negative m).printfG sign whole fraction exponent := by
  obtain ⟨whole, fraction, suffix, x, hparts, -, -⟩ := m.exists_parts_printfG
  exact ⟨_, _, _, _, hparts.numberParts negative⟩

/-- An integer without a sign in front of it reads as it is printed. -/
theorem numberParts_intText (n : ℤ) : ∃ sign whole, Json.NumberParts (intText n) sign whole [] [] := by
  obtain ⟨sign, whole, fraction, exponent, hparts⟩ := Json.isNumber_toDigits n.natAbs
  have hdigits := Json.digits_toDigits n.natAbs
  have hzero : Nat.toDigits 10 n.natAbs = ['0'] ∨ (Nat.toDigits 10 n.natAbs).head? ≠ some '0' := by
    rcases eq_or_ne n.natAbs 0 with h | h
    · exact .inl (by rw [h]; rfl)
    · exact .inr (Json.head?_toDigits h)
  unfold intText
  split_ifs
  · exact ⟨['-'], _, .inr rfl, hdigits, hzero, .inl rfl, .inl rfl, by simp⟩
  · exact ⟨[], _, .inl rfl, hdigits, hzero, .inl rfl, .inl rfl, by simp⟩

theorem integerOf_intText (n : ℤ) : integerOf (intText n) = n := by
  have hvalue := Json.natOfDigits_toDigits n.natAbs
  unfold intText
  split_ifs with hneg
  · rw [integerOf, hvalue]
    omega
  · have hdigits := Json.digits_toDigits n.natAbs
    obtain ⟨c, more, hcons⟩ := List.exists_cons_of_ne_nil hdigits.1
    have hc : c ≠ '-' := fun h ↦ absurd (h ▸ hdigits.2 c (hcons ▸ .head _)) (by decide)
    have hplain : integerOf (Nat.toDigits 10 n.natAbs) = Json.natOfDigits (Nat.toDigits 10 n.natAbs) := by
      rw [hcons, integerOf]
      exact fun _ h ↦ hc (List.cons.inj h).1
    rw [hplain, hvalue]
    omega

theorem isInt64Literal_intText (n : Int64Value) : isInt64Literal (intText n) = true := by
  obtain ⟨sign, whole, hparts⟩ := numberParts_intText n
  have hnumber := mongoJsonIsNumber_of_parts hparts
  simp only [isInt64Literal, integerOf_intText, Bool.and_eq_true, decide_eq_true_eq]
  exact ⟨⟨by simpa using hnumber, n.2.1⟩, n.2.2⟩

/-! ## ObjectIds -/

theorem toLower_of_isXDigit {c : Char} (h : isXDigit c = true) : c.toLower ∈ "0123456789abcdef".toList := by
  have hall : ∀ n < 128, isXDigit (Char.ofNat n) = true → (Char.ofNat n).toLower ∈ "0123456789abcdef".toList := by
    decide
  have hsmall : c.toNat < 128 := by
    have hle {d : Char} (hd : c ≤ d) (hascii : d.toNat < 128) : c.toNat < 128 :=
      (UInt32.le_iff_toNat_le.mp hd).trans_lt hascii
    unfold isXDigit hexDigit at h
    split_ifs at h with hdigit hlower hupper
    · exact (toNat_of_isDigit hdigit).2.trans_lt (by decide)
    · exact hle hlower.2 (by decide)
    · exact hle hupper.2 (by decide)
    · cases h
  rw [← Char.ofNat_toNat c] at h ⊢
  exact hall c.toNat hsmall h

/-- Hexadecimal digits are an ObjectId in either case of the letters. -/
def ObjectId.ofHex (text : Text) (h : isHex24 text = true) : ObjectId where
  hex := text.map Char.toLower
  length_eq := by
    rw [isHex24, Bool.and_eq_true, decide_eq_true_eq] at h
    rw [List.length_map, h.1]
  lower c hc := by
    rw [isHex24, Bool.and_eq_true, List.all_eq_true] at h
    obtain ⟨d, hd, rfl⟩ := List.mem_map.mp hc
    exact toLower_of_isXDigit (h.2 d hd)

/-! ## A small libbson -/

/-- The values that Extended JSON writes as an object with a string. -/
def valueUnder (key s : Text) : Option Bson :=
  if key = "$oid".toList then if h : isHex24 s = true then some (.oid (.ofHex s h)) else none
  else if key = "$date".toList then (isoMillis s).map .dateTime
  else if key = "$numberDouble".toList then some (.double (doubleOf s))
  else none

def valueOf : Json → Option Bson
  | .null => some .null
  | .bool b => some (.bool b)
  | .str s => some (.utf8 s)
  | .obj [] => some (.document [])
  | .obj [(key, .str s)] => valueUnder key s
  | _ => none

/-- A libbson without nested values, apart from the empty document. -/
def jsonLib : LibBson where
  relaxedJson fields := if fields.isEmpty then some "\x7b \x7d".toList else none
  value text :=
    match mongoJsonIsNumber text with
    | some true =>
      if h : -2 ^ 63 ≤ integerOf text ∧ integerOf text ≤ 2 ^ 63 - 1 then some (.int ⟨integerOf text, h⟩) else none
    | some false => some (.double (doubleOf text))
    | none => (Json.read text).bind valueOf

theorem jsonLib_value {text : Text} {v : Json} (hnumber : mongoJsonIsNumber text = none)
    (h : Json.Spells (.value v) text) : jsonLib.value text = valueOf v := by
  simp only [jsonLib, hnumber, Json.read_of_spells h.toPadded, Option.bind_some]

theorem jsonLib_extended {written : String} (key : String) (hkey : written.toList = jsString key.toList ++ ": ".toList)
    (s : Text) : jsonLib.value (extended written s) = valueUnder key.toList s :=
  jsonLib_value rfl (spells_extended hkey s)

theorem jsonLib_reads : jsonLib.Reads where
  null := rfl
  bool b := by cases b <;> rfl
  string body s h := by
    have hspells := Json.Spells.str h
    rw [Json.ofUnits_toNat] at hspells
    exact jsonLib_value rfl hspells
  integer text sign whole h n hn := by
    have hnumber : mongoJsonIsNumber text = some true := mongoJsonIsNumber_of_parts h
    obtain ⟨n, hrange⟩ := n
    obtain rfl : integerOf text = n := hn
    simp only [jsonLib, hnumber]
    exact dif_pos hrange
  double text sign whole fraction exponent h hnot negative m hm := by
    have hnumber : mongoJsonIsNumber text = some false := by
      rw [mongoJsonIsNumber_of_parts h]
      simp only [Option.some.injEq, Bool.and_eq_false_iff, decide_eq_false_iff_not]
      exact hnot
    simp only [jsonLib, hnumber, hm]
  numberDouble text _ negative m hm := by
    rw [jsonLib_extended "$numberDouble" (by decide), valueUnder, if_neg (by decide), if_neg (by decide), if_pos rfl, hm]
  oid text h id hid := by
    rw [jsonLib_extended "$oid" (by decide), valueUnder, if_pos rfl, dif_pos h]
    obtain ⟨hex, hlength, hlower⟩ := id
    obtain rfl : hex = text.map Char.toLower := hid
    rfl
  dates text millis h := by
    rw [jsonLib_extended "$date" (by decide), valueUnder, if_neg (by decide), if_pos rfl, h]
    rfl
  prints fields text h := by
    obtain ⟨-, htext⟩ := Option.ite_none_right_eq_some.mp h
    obtain rfl := Option.some.inj htext
    exact ⟨_, .emptyObj Json.blanks_space⟩
  printsArray items text h := by cases h

end Squaero.Mongo
