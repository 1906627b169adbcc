import Mathlib.Algebra.GroupWithZero.Nat
import Mathlib.Data.List.Basic
import Mathlib.Data.List.DropRight

/-!
# Texts of C and of JavaScript

Both kinds of text are lists of characters. A C string is the list of its bytes up to the
terminating NUL, a byte being the character of its code. A JavaScript string is the list of its
code points.

The character classes are those of `ctype.h` in the C locale and of the regular expressions of
JavaScript. `jsUpper` and `jsLower` map the ASCII letters and the few other characters whose
image holds an ASCII letter; every other character stays as it is, which a caller that goes on to
look for ASCII words cannot tell from its real image.
-/

namespace Squaero.Lib

abbrev Text := List Char

/-- The characters of a text are tried one by one, not all characters there are. -/
instance (priority := high) decidableForallMem (t : Text) (p : Char → Prop) [DecidablePred p] :
    Decidable (∀ c ∈ t, p c) :=
  List.decidableBAll p t

instance : LawfulBEq Text := List.instLawfulBEq

theorem isAlpha_eq (c : Char) : c.isAlpha = (c.isUpper || c.isLower) := rfl

theorem isUpper_eq (c : Char) : c.isUpper = decide (c.val ≥ 'A'.val ∧ c.val ≤ 'Z'.val) := rfl

theorem isLower_eq (c : Char) : c.isLower = (decide (c.val ≥ 'a'.val) && decide (c.val ≤ 'z'.val)) := rfl

/-- `isspace` in the C locale. -/
def isSpace (c : Char) : Bool := c = ' ' || (9 ≤ c.toNat && c.toNat ≤ 13)

/-- `isalpha(c) || c == '_'`. -/
def isWordChar (c : Char) : Bool := c.isAlpha || c = '_'

/-- The value of a hexadecimal digit. -/
def hexDigit (c : Char) : Option ℕ :=
  if c.isDigit then some (c.toNat - '0'.toNat)
  else if 'a' ≤ c ∧ c ≤ 'f' then some (c.toNat - 'a'.toNat + 10)
  else if 'A' ≤ c ∧ c ≤ 'F' then some (c.toNat - 'A'.toNat + 10)
  else none

/-- What is in a C string: the bytes before the first NUL. -/
def cString (memory : Text) : Text := memory.takeWhile (· ≠ '\x00')

theorem cString_eq_self_iff {s : Text} : cString s = s ↔ '\x00' ∉ s := by
  unfold cString
  rw [List.takeWhile_eq_self_iff]
  constructor
  · intro h hmem
    exact absurd (h _ hmem) (by decide)
  · intro h c hc
    exact decide_eq_true (ne_of_mem_of_not_mem hc h)

/-! ## Outside ASCII -/

/-- Outside ASCII: no byte or character that a scanner of program text singles out. -/
def isWide (c : Char) : Bool := 0x80 ≤ c.toNat

theorem ne_of_isWide {c d : Char} (hc : isWide c) (hd : isWide d = false) : c ≠ d := by
  rintro rfl
  simp [hc] at hd

theorem isSpace_of_isWide {c : Char} (h : isWide c) : isSpace c = false := by
  have hlow : 0x80 ≤ c.toNat := by simpa [isWide] using h
  have hblank : c ≠ ' ' := ne_of_isWide h (by decide)
  simp only [isSpace, hblank, decide_false, Bool.false_or, Bool.and_eq_false_iff,
    decide_eq_false_iff_not]
  omega

theorem isWordChar_of_isWide {c : Char} (h : isWide c) : isWordChar c = false := by
  have hlow : 0x80 ≤ c.toNat := by simpa [isWide] using h
  have hunderscore : c ≠ '_' := ne_of_isWide h (by decide)
  have hval : c.toNat = c.val.toNat := rfl
  have hZ : 'Z'.val.toNat = 90 := rfl
  have hz : 'z'.val.toNat = 122 := rfl
  simp only [isWordChar, hunderscore, decide_false, Bool.or_false, isAlpha_eq, isUpper_eq,
    isLower_eq, Bool.or_eq_false_iff, Bool.and_eq_false_iff, decide_eq_false_iff_not, ge_iff_le,
    UInt32.le_iff_toNat_le]
  omega

theorem isWide_of_isAlpha {c : Char} (h : c.isAlpha) : isWide c = false := by
  by_contra hwide
  have := isWordChar_of_isWide (by simpa using hwide)
  simp [isWordChar, h] at this

theorem isWide_of_isDigit {c : Char} (h : c.isDigit = true) : isWide c = false := by
  simp only [Char.isDigit, Bool.and_eq_true, decide_eq_true_eq, ge_iff_le, UInt32.le_iff_toNat_le] at h
  have hval : c.toNat = c.val.toNat := rfl
  have hnine : '9'.val.toNat = 57 := rfl
  simp only [isWide, decide_eq_false_iff_not]
  omega

theorem isWordChar_of_isSpace {c : Char} (h : isSpace c) : isWordChar c = false := by
  have hval : c.toNat = c.val.toNat := rfl
  have hA : 'A'.val.toNat = 65 := rfl
  have ha : 'a'.val.toNat = 97 := rfl
  simp only [isSpace, Bool.or_eq_true, decide_eq_true_eq, Bool.and_eq_true] at h
  rcases h with rfl | h
  · decide
  · have hunderscore : c ≠ '_' := by
      rintro rfl
      revert h
      decide
    simp only [isWordChar, hunderscore, decide_false, Bool.or_false, isAlpha_eq, isUpper_eq,
      isLower_eq, Bool.or_eq_false_iff, Bool.and_eq_false_iff, decide_eq_false_iff_not,
      ge_iff_le, UInt32.le_iff_toNat_le]
    omega

theorem isSpace_of_isDigit {c : Char} (h : c.isDigit = true) : isSpace c = false := by
  by_contra hspace
  have hspace : isSpace c = true := by simpa using hspace
  simp only [Char.isDigit, Bool.and_eq_true, decide_eq_true_eq, ge_iff_le, UInt32.le_iff_toNat_le] at h
  simp only [isSpace, Bool.or_eq_true, decide_eq_true_eq, Bool.and_eq_true] at hspace
  rcases hspace with rfl | hspace
  · exact absurd h (by decide)
  · have hval : c.toNat = c.val.toNat := rfl
    have hzero : '0'.val.toNat = 48 := rfl
    omega

theorem isWordChar_of_isDigit {c : Char} (h : c.isDigit = true) : isWordChar c = false := by
  have hunderscore : c ≠ '_' := by
    rintro rfl
    exact absurd h (by decide)
  simp only [Char.isDigit, Bool.and_eq_true, decide_eq_true_eq, ge_iff_le, UInt32.le_iff_toNat_le] at h
  have hnine : '9'.val.toNat = 57 := rfl
  have hA : 'A'.val.toNat = 65 := rfl
  have ha : 'a'.val.toNat = 97 := rfl
  simp only [isWordChar, hunderscore, decide_false, Bool.or_false, isAlpha_eq, isUpper_eq,
    isLower_eq, Bool.or_eq_false_iff, Bool.and_eq_false_iff, decide_eq_false_iff_not, ge_iff_le,
    UInt32.le_iff_toNat_le]
  omega

/-! ## JavaScript -/

/-- `\s` of a regular expression, and what `trim` removes. -/
def isJsSpace (c : Char) : Bool :=
  isSpace c || c.toNat ∈ [0xA0, 0x1680, 0x2028, 0x2029, 0x202F, 0x205F, 0x3000, 0xFEFF] ||
    (0x2000 ≤ c.toNat && c.toNat ≤ 0x200A)

theorem isWide_of_isJsSpace {c : Char} (h : isJsSpace c) (hspace : isSpace c = false) :
    isWide c := by
  simp only [isJsSpace, hspace, Bool.false_or, Bool.or_eq_true, decide_eq_true_eq,
    Bool.and_eq_true, List.mem_cons, List.not_mem_nil, or_false] at h
  simp only [isWide, decide_eq_true_eq]
  omega

theorem isWordChar_of_isJsSpace {c : Char} (h : isJsSpace c) : isWordChar c = false := by
  cases hspace : isSpace c with
  | true => exact isWordChar_of_isSpace hspace
  | false => exact isWordChar_of_isWide (isWide_of_isJsSpace h hspace)

/-- `text.length`, in UTF-16 code units. -/
def jsLength (text : Text) : ℕ := (text.map fun c ↦ if c.toNat < 0x10000 then 1 else 2).sum

def jsTrimStart (text : Text) : Text := text.dropWhile isJsSpace

def jsTrimEnd (text : Text) : Text := text.rdropWhile isJsSpace

/-- `text.trim()`. -/
def jsTrim (text : Text) : Text := jsTrimEnd (jsTrimStart text)

theorem jsTrim_jsTrim (text : Text) : jsTrim (jsTrim text) = jsTrim text := by
  have hstart : jsTrimStart (jsTrim text) = jsTrim text := by
    unfold jsTrim jsTrimEnd jsTrimStart
    rw [List.dropWhile_eq_self_iff]
    intro hlength
    have hbeginning : (text.dropWhile isJsSpace).rdropWhile isJsSpace <+: text.dropWhile isJsSpace :=
      List.rdropWhile_prefix _ _
    rw [hbeginning.getElem hlength]
    exact List.dropWhile_get_zero_not _ _ (hlength.trans_le hbeginning.length_le)
  calc jsTrim (jsTrim text) = jsTrimEnd (jsTrimStart (jsTrim text)) := rfl
    _ = jsTrimEnd (jsTrim text) := by rw [hstart]
    _ = jsTrim text := List.rdropWhile_idempotent _ _

theorem mem_of_mem_jsTrim {text : Text} {c : Char} (h : c ∈ jsTrim text) : c ∈ text :=
  (List.dropWhile_suffix _).mem ((List.rdropWhile_prefix _ _).mem h)

/-- A text that neither begins nor ends in a blank. -/
theorem jsTrim_of_ends {text : Text} (hhead : ∀ c, text.head? = some c → isJsSpace c = false)
    (hlast : ∀ c, text.getLast? = some c → isJsSpace c = false) : jsTrim text = text := by
  have hstart : jsTrimStart text = text := by
    unfold jsTrimStart
    cases text with
    | nil => rfl
    | cons c text => rw [List.dropWhile_cons_of_neg (by simp [hhead c rfl])]
  unfold jsTrim jsTrimEnd
  rw [hstart, List.rdropWhile_eq_self_iff]
  intro hne
  simp [hlast _ (List.getLast?_eq_some_getLast hne)]

theorem jsTrim_of_forall {text : Text} (h : ∀ c ∈ text, isJsSpace c = false) : jsTrim text = text :=
  jsTrim_of_ends (fun c hc ↦ h c (List.mem_of_head? hc)) fun c hc ↦ h c (List.mem_of_getLast? hc)

/-- `toUpperCase` on one code point, as far as ASCII letters are concerned. -/
def jsUpperChar (c : Char) : Text :=
  match c with
  | 'ß' => ['S', 'S']
  | 'ı' => ['I']
  | 'ŉ' => ['\u02BC', 'N']
  | 'ſ' => ['S']
  | 'ǰ' => ['J', '\u030C']
  | '\u1E96' => ['H', '\u0331']
  | '\u1E97' => ['T', '\u0308']
  | '\u1E98' => ['W', '\u030A']
  | '\u1E99' => ['Y', '\u030A']
  | '\u1E9A' => ['A', '\u02BE']
  | '\uFB00' => ['F', 'F']
  | '\uFB01' => ['F', 'I']
  | '\uFB02' => ['F', 'L']
  | '\uFB03' => ['F', 'F', 'I']
  | '\uFB04' => ['F', 'F', 'L']
  | '\uFB05' => ['S', 'T']
  | '\uFB06' => ['S', 'T']
  | c => [c.toUpper]

def jsUpper (text : Text) : Text := text.flatMap jsUpperChar

/-- `toLowerCase` on one code point, as far as ASCII letters are concerned. -/
def jsLowerChar (c : Char) : Text :=
  match c with
  | 'İ' => ['i', '\u0307']
  | '\u212A' => ['k']
  | c => [c.toLower]

def jsLower (text : Text) : Text := text.flatMap jsLowerChar

end Squaero.Lib
