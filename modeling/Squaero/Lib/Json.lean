import Mathlib.Data.Rat.Defs
import Squaero.Lib.Text

/-!
# JSON values

A value is a tree. An object is the list of its members in the order of the text, keys may repeat,
and `getItem` is the member a lookup finds: the first of that name. `read` reads a text with the
escapes of its strings decoded.
-/

namespace Squaero.Lib

inductive Json
  | null
  | bool (value : Bool)
  | num (value : ℚ)
  | str (value : Text)
  | arr (items : List Json)
  | obj (members : List (Text × Json))
  deriving Repr

namespace Json

/-- The first member called `name`. -/
def getItem (members : List (Text × Json)) (name : Text) : Option Json :=
  (members.find? (·.1 = name)).map (·.2)

def isStr : Json → Bool
  | .str _ => true
  | _ => false

def isArr : Json → Bool
  | .arr _ => true
  | _ => false

def isObj : Json → Bool
  | .obj _ => true
  | _ => false

/-! ## Reading -/

def skipBlanks (text : Text) : Text :=
  text.dropWhile fun c ↦ c = ' ' || c = '\n' || c = '\r' || c = '\t'

/-- The number four hexadecimal digits write. -/
def hex4 (a b c d : Char) : Option ℕ := do
  return (((← hexDigit a) * 16 + (← hexDigit b)) * 16 + (← hexDigit c)) * 16 + (← hexDigit d)

/-- The character behind a backslash, `u` apart. -/
def escaped (c : Char) : Option Char :=
  if c = '"' ∨ c = '\\' ∨ c = '/' then some c
  else if c = 'b' then some '\x08'
  else if c = 'f' then some '\x0c'
  else if c = 'n' then some '\n'
  else if c = 'r' then some '\r'
  else if c = 't' then some '\t'
  else none

/-- The code units of a string up to its closing quote, and the text behind that. -/
def readUnits : Text → Option (List ℕ × Text)
  | [] => none
  | '"' :: rest => some ([], rest)
  | '\\' :: 'u' :: a :: b :: c :: d :: rest => do
    let unit ← hex4 a b c d
    let (units, after) ← readUnits rest
    return (unit :: units, after)
  | '\\' :: e :: rest => do
    let c ← escaped e
    let (units, after) ← readUnits rest
    return (c.toNat :: units, after)
  | c :: rest => do
    let (units, after) ← readUnits rest
    return (c.toNat :: units, after)

/-- Code units as characters: two surrogates are one. -/
def ofUnits : List ℕ → Text
  | [] => []
  | high :: low :: units =>
    if 0xD800 ≤ high ∧ high < 0xDC00 ∧ 0xDC00 ≤ low ∧ low < 0xE000 then
      .ofNat (0x10000 + (high - 0xD800) * 0x400 + (low - 0xDC00)) :: ofUnits units
    else .ofNat high :: ofUnits (low :: units)
  | [unit] => [.ofNat unit]

/-- The string behind an opening quote. -/
def readString (text : Text) : Option (Text × Text) :=
  (readUnits text).map fun (units, after) ↦ (ofUnits units, after)

def natOfDigits (digits : Text) : ℕ :=
  digits.foldl (fun n c ↦ n * 10 + (c.toNat - '0'.toNat)) 0

/-- The leading digits and what follows them. -/
def readDigits (text : Text) : Text × Text := text.span Char.isDigit

def readFraction (text : Text) : ℚ × Text :=
  match text with
  | '.' :: rest =>
    let (digits, after) := readDigits rest
    (natOfDigits digits / 10 ^ digits.length, after)
  | _ => (0, text)

def readExponent (text : Text) : ℤ × Text :=
  match text with
  | e :: sign :: rest =>
    if e = 'e' ∨ e = 'E' then
      if sign = '-' then
        let (digits, after) := readDigits rest
        (-natOfDigits digits, after)
      else
        let (digits, after) := readDigits (if sign = '+' then rest else sign :: rest)
        (natOfDigits digits, after)
    else (0, text)
  | _ => (0, text)

def readNumber (text : Text) : Option (Json × Text) :=
  let negative := text.head? = some '-'
  let (digits, rest) := readDigits (if negative then text.drop 1 else text)
  if digits = [] then none
  else
    let (fraction, rest) := readFraction rest
    let (exponent, rest) := readExponent rest
    let magnitude := (natOfDigits digits + fraction) * (10 : ℚ) ^ exponent
    some (.num (if negative then -magnitude else magnitude), rest)

mutual

/-- A value in front of a text. Every call reads a character, so fuel does not run out. -/
def readValue : ℕ → Text → Option (Json × Text)
  | 0, _ => none
  | fuel + 1, text =>
    let text := skipBlanks text
    match text with
    | '"' :: rest => (readString rest).map fun (s, after) ↦ (.str s, after)
    | '[' :: rest =>
      if (skipBlanks rest).head? = some ']' then some (.arr [], (skipBlanks rest).drop 1)
      else (readItems fuel rest).map fun (items, after) ↦ (.arr items, after)
    | '{' :: rest =>
      if (skipBlanks rest).head? = some '}' then some (.obj [], (skipBlanks rest).drop 1)
      else (readMembers fuel rest).map fun (members, after) ↦ (.obj members, after)
    | _ =>
      if "null".toList.isPrefixOf text then some (.null, text.drop 4)
      else if "true".toList.isPrefixOf text then some (.bool true, text.drop 4)
      else if "false".toList.isPrefixOf text then some (.bool false, text.drop 5)
      else readNumber text

/-- The items of an array up to its bracket. -/
def readItems : ℕ → Text → Option (List Json × Text)
  | 0, _ => none
  | fuel + 1, text => do
    let (item, after) ← readValue fuel text
    match skipBlanks after with
    | ']' :: rest => return ([item], rest)
    | ',' :: rest =>
      let (items, after) ← readItems fuel rest
      return (item :: items, after)
    | _ => none

/-- The members of an object up to its brace. -/
def readMembers : ℕ → Text → Option (List (Text × Json) × Text)
  | 0, _ => none
  | fuel + 1, text =>
    match skipBlanks text with
    | '"' :: rest => do
      let (key, after) ← readString rest
      match skipBlanks after with
      | ':' :: rest =>
        let (value, after) ← readValue fuel rest
        match skipBlanks after with
        | '}' :: rest => return ([(key, value)], rest)
        | ',' :: rest =>
          let (members, after) ← readMembers fuel rest
          return ((key, value) :: members, after)
        | _ => none
      | _ => none
    | _ => none

end

/-- The value of a whole text. -/
def read (text : Text) : Option Json :=
  match readValue (2 * text.length + 2) text with
  | some (value, after) => if skipBlanks after = [] then some value else none
  | none => none

/-! ## Printing -/

/-- A character inside a printed string. -/
def escape (c : Char) : Text :=
  if c = '"' ∨ c = '\\' then ['\\', c]
  else if c = '\x08' then ['\\', 'b']
  else if c = '\x0c' then ['\\', 'f']
  else if c = '\n' then ['\\', 'n']
  else if c = '\r' then ['\\', 'r']
  else if c = '\t' then ['\\', 't']
  else if c.toNat < 32 then
    "\\u00".toList ++ [(c.toNat / 16).digitChar, (c.toNat % 16).digitChar]
  else [c]

def printString (s : Text) : Text := '"' :: s.flatMap escape ++ ['"']

section Print

variable (printNumber : ℚ → Text)

mutual

/-- A value without blanks between its parts. -/
def print : Json → Text
  | .null => "null".toList
  | .bool value => (if value then "true" else "false").toList
  | .num value => printNumber value
  | .str value => printString value
  | .arr items => '[' :: printItems items ++ [']']
  | .obj members => '{' :: printMembers members ++ ['}']

def printItems : List Json → Text
  | [] => []
  | [item] => print item
  | item :: items => print item ++ ',' :: printItems items

def printMembers : List (Text × Json) → Text
  | [] => []
  | [(key, value)] => printString key ++ ':' :: print value
  | (key, value) :: members => printString key ++ ':' :: print value ++ ',' :: printMembers members

end

end Print

end Json

end Squaero.Lib
