import Squaero.Lib.Text
import Mathlib.Data.List.Infix

/-!
# The lexical rules of SQL

How an engine cuts one statement into words, numbers, operators and quoted texts. Engines differ in what
they quote with and in whether a backslash escapes; the rest is common. The lexer gives up where a text
leaves what it covers (comments, dollar quotes, a `;`, prefixed literals, numbers with an exponent), so
that what it reads is one statement of plain tokens. How long a name may be is left to the engine.
-/

namespace Squaero.Lib.SqlLex

open Squaero.Lib

/-- What a quoted text is, up to which character it goes, and whether a backslash escapes in it. A
doubled `close` stands for itself. -/
structure Quoting where
  close : Char
  isString : Bool
  backslash : Bool
  deriving DecidableEq, Repr

/-- The characters that open a quoted text. -/
abbrev Dialect := Char → Option Quoting

inductive Token
  | word (text : Text)
  | num (text : Text)
  | ident (text : Text)
  | str (text : Text)
  | op (text : Text)
  | punct (c : Char)
  deriving DecidableEq, Repr

def Quoting.token (q : Quoting) (text : Text) : Token := if q.isString then .str text else .ident text

/-- Standard SQL: strings in single quotes, identifiers in double ones. -/
def ansi : Dialect := fun c ↦
  if c = '\'' then some ⟨'\'', true, false⟩
  else if c = '"' then some ⟨'"', false, false⟩
  else none

/-- MySQL and MariaDB: both quotes are for strings, with backslash escapes. -/
def mysql : Dialect := fun c ↦
  if c = '\'' then some ⟨'\'', true, true⟩
  else if c = '"' then some ⟨'"', true, true⟩
  else if c = '`' then some ⟨'`', false, false⟩
  else none

/-- SQL Server: identifiers in brackets as well. -/
def transactSql : Dialect := fun c ↦
  if c = '\'' then some ⟨'\'', true, false⟩
  else if c = '"' then some ⟨'"', false, false⟩
  else if c = '[' then some ⟨']', false, false⟩
  else none

/-- Informix without `DELIMIDENT`: no quoted identifiers. -/
def informix : Dialect := fun c ↦
  if c = '\'' then some ⟨'\'', true, false⟩
  else if c = '"' then some ⟨'"', true, false⟩
  else none

/-- What a backslash and the character behind it stand for. -/
def unescape (c : Char) : Text :=
  if c = '0' then ['\x00']
  else if c = 'b' then ['\x08']
  else if c = 'n' then ['\n']
  else if c = 'r' then ['\r']
  else if c = 't' then ['\t']
  else if c = 'Z' then ['\x1a']
  else if c = '%' ∨ c = '_' then ['\\', c]
  else [c]

inductive Mode
  | between
  | word (text : Text)
  | num (text : Text)
  | op (text : Text)
  | dot
  | punct (c : Char)
  | quoted (q : Quoting) (text : Text)
  | escaped (q : Quoting) (text : Text)
  /-- Behind a closing character, which may turn out to be the first of two. -/
  | closing (q : Quoting) (text : Text)
  deriving DecidableEq, Repr

/-- A character that quotes nothing and belongs to no token before it. -/
def plainStart (c : Char) : Option Mode :=
  if isSpace c then some .between
  else if isWordChar c then some (.word [c])
  else if c.isDigit then some (.num [c])
  else if c = '.' then some .dot
  else if c ∈ ['=', '<', '>', '!', '+', '-'] then some (.op [c])
  else if c ∈ ['(', ')', ',', '*', '@'] then some (.punct c)
  else none

section

variable (d : Dialect)

/-- A character that belongs to no token before it. -/
def start (c : Char) : Option Mode := (d c).elim (plainStart c) fun q ↦ some (.quoted q [])

/-- One character: the token it completes, and the mode behind it. -/
def step : Mode → Char → Option (Option Token × Mode)
  | .between, c => (start d c).map fun mode ↦ (none, mode)
  | .word text, c =>
    if isWordChar c ∨ c.isDigit then some (none, .word (text ++ [c]))
    else if (d c).isSome then none
    else (start d c).map fun mode ↦ (some (.word text), mode)
  | .num text, c =>
    if c.isDigit ∨ c = '.' ∧ '.' ∉ text then some (none, .num (text ++ [c]))
    else if isWordChar c ∨ c = '.' then none
    else (start d c).map fun mode ↦ (some (.num text), mode)
  | .op text, c =>
    if c ∈ ['=', '<', '>', '!', '+', '-'] then
      if text ++ [c] ∈ [['<', '>'], ['<', '='], ['>', '='], ['!', '=']] then
        some (none, .op (text ++ [c]))
      else none
    else (start d c).map fun mode ↦ (some (.op text), mode)
  | .dot, c =>
    if c.isDigit then some (none, .num ['.', c])
    else (start d c).map fun mode ↦ (some (.punct '.'), mode)
  | .punct p, c => (start d c).map fun mode ↦ (some (.punct p), mode)
  | .quoted q text, c =>
    if c = q.close then some (none, .closing q text)
    else if c = '\\' ∧ q.backslash then some (none, .escaped q text)
    else some (none, .quoted q (text ++ [c]))
  | .escaped q text, c => some (none, .quoted q (text ++ unescape c))
  | .closing q text, c =>
    if c = q.close then some (none, .quoted q (text ++ [c]))
    else (start d c).map fun mode ↦ (some (q.token text), mode)

attribute [local grind =] step

/-- The token that the end of the text completes. -/
def finish : Mode → Option (Option Token)
  | .between => some none
  | .word text => some (some (.word text))
  | .num text => some (some (.num text))
  | .op text => some (some (.op text))
  | .dot => some (some (.punct '.'))
  | .punct c => some (some (.punct c))
  | .closing q text => some (some (q.token text))
  | .quoted _ _ => none
  | .escaped _ _ => none

/-- The tokens of a text from a mode on, behind those already read, the last one first. -/
def scan : Mode → List Token → Text → Option (List Token)
  | mode, out, [] => (finish mode).map fun token ↦ (token.toList ++ out).reverse
  | mode, out, c :: rest =>
    match step d mode c with
    | none => none
    | some (token, mode) => scan mode (token.toList ++ out) rest

def lex (text : Text) : Option (List Token) := scan d .between [] text

end

variable {d : Dialect} {q : Quoting}

theorem scan_cons {mode next : Mode} {c : Char} {token : Option Token} {out : List Token} {rest : Text}
    (h : step d mode c = some (token, next)) :
    scan d mode out (c :: rest) = scan d next (token.toList ++ out) rest := by
  rw [scan, h]

/-- A token that does not go on is the one read. -/
theorem scan_pending {mode : Mode} {token : Token} {rest : Text}
    (hfinish : finish mode = some (some token))
    (hnext : ∀ c, rest.head? = some c → step d mode c = (start d c).map fun mode ↦ (some token, mode))
    (out : List Token) : scan d mode out rest = scan d .between (token :: out) rest := by
  cases rest with
  | nil =>
    rw [scan, scan, hfinish]
    simp [finish]
  | cons c rest =>
    have hnext := hnext c rfl
    have hbetween : step d .between c = (start d c).map fun mode ↦ (none, mode) := rfl
    cases hstart : start d c with
    | none => simp [scan, hnext, hbetween, hstart]
    | some mode =>
      rw [hstart] at hnext hbetween
      rw [scan_cons hnext, scan_cons hbetween]
      rfl

/-! ## Quoted texts -/

/-- `spelled` is how a quoted text may spell `text`. -/
inductive Spells (q : Quoting) : Text → Text → Prop
  | nil : Spells q [] []
  | plain {c : Char} {spelled text : Text} (hclose : c ≠ q.close) (hescape : ¬ (c = '\\' ∧ q.backslash))
    (h : Spells q spelled text) : Spells q (c :: spelled) (c :: text)
  | doubled {spelled text : Text} (h : Spells q spelled text) :
    Spells q (q.close :: q.close :: spelled) (q.close :: text)
  | escaped {c : Char} {spelled text : Text} (hescape : q.backslash = true) (hclose : '\\' ≠ q.close)
    (h : Spells q spelled text) : Spells q ('\\' :: c :: spelled) (unescape c ++ text)

theorem scan_spelled {spelled text : Text} (h : Spells q spelled text) (read : Text)
    (out : List Token) (rest : Text) :
    scan d (.quoted q read) out (spelled ++ rest) = scan d (.quoted q (read ++ text)) out rest := by
  induction h generalizing read with
  | nil => simp
  | @plain c spelled text hclose hescape _ ih =>
    have hstep : step d (.quoted q read) c = some (none, .quoted q (read ++ [c])) := by
      simp [step, hclose, hescape]
    rw [List.cons_append, scan_cons hstep, Option.toList_none, List.nil_append, ih]
    simp
  | @doubled spelled text _ ih =>
    have hfirst : step d (.quoted q read) q.close = some (none, .closing q read) := by simp [step]
    have hsecond : step d (.closing q read) q.close = some (none, .quoted q (read ++ [q.close])) := by
      simp [step]
    rw [List.cons_append, List.cons_append, scan_cons hfirst, scan_cons hsecond, Option.toList_none,
      List.nil_append, List.nil_append, ih]
    simp
  | @escaped c spelled text hescape hclose _ ih =>
    have hfirst : step d (.quoted q read) '\\' = some (none, .escaped q read) := by
      simp [step, hescape, hclose]
    rw [List.cons_append, List.cons_append, scan_cons hfirst, scan_cons rfl, Option.toList_none,
      List.nil_append, List.nil_append, ih]
    simp

/-- What is behind a quoted text does not go on with it. -/
theorem scan_closing {text rest : Text} (hrest : rest.head? ≠ some q.close) (out : List Token) :
    scan d (.closing q text) out rest = scan d .between (q.token text :: out) rest := by
  refine scan_pending rfl (fun c hc ↦ ?_) out
  have hne : c ≠ q.close := fun h ↦ hrest (h ▸ hc)
  simp [step, hne]

/-- A quoted text is one token, whatever it says. -/
theorem scan_quoted {c : Char} (hopen : d c = some q) {spelled text rest : Text}
    (h : Spells q spelled text) (hrest : rest.head? ≠ some q.close) (out : List Token) :
    scan d .between out (c :: (spelled ++ q.close :: rest)) =
      scan d .between (q.token text :: out) rest := by
  have hstart : step d .between c = some (none, .quoted q []) := by simp [step, start, hopen]
  have hclose : step d (.quoted q text) q.close = some (none, .closing q text) := by simp [step]
  rw [scan_cons hstart, Option.toList_none, List.nil_append, scan_spelled h, List.nil_append,
    scan_cons hclose, Option.toList_none, List.nil_append, scan_closing hrest]

/-- Doubling the closing character spells any text, where a backslash does not escape. -/
theorem spells_doubled (hbackslash : q.backslash = false) (text : Text) :
    Spells q (text.flatMap fun c ↦ if c = q.close then [c, c] else [c]) text := by
  induction text with
  | nil => exact .nil
  | cons c text ih =>
    rw [List.flatMap_cons]
    split_ifs with hc
    · subst hc
      exact .doubled ih
    · exact .plain hc (by simp [hbackslash]) ih

/-! ## Words, numbers and operators -/

/-- Only the usual characters quote. -/
def Usual (d : Dialect) : Prop := ∀ c, c ∉ ['\'', '"', '`', '['] → d c = none

theorem ansi_usual : Usual ansi := by
  intro c hc
  simp only [List.mem_cons, List.not_mem_nil, or_false, not_or] at hc
  simp [ansi, hc]

theorem mysql_usual : Usual mysql := by
  intro c hc
  simp only [List.mem_cons, List.not_mem_nil, or_false, not_or] at hc
  simp [mysql, hc]

theorem transactSql_usual : Usual transactSql := by
  intro c hc
  simp only [List.mem_cons, List.not_mem_nil, or_false, not_or] at hc
  simp [transactSql, hc]

theorem informix_usual : Usual informix := by
  intro c hc
  simp only [List.mem_cons, List.not_mem_nil, or_false, not_or] at hc
  simp [informix, hc]

/-- A character that may be in a word. -/
def isWordPart (c : Char) : Bool := isWordChar c || c.isDigit

/-- A character that a word and a number end before. -/
def isBoundary (c : Char) : Bool :=
  c ∉ ['\'', '"', '`', '[', ']', '.'] && !isWordPart c

/-- What is behind a token does not go on with it. -/
def Ends (rest : Text) : Prop := ∀ c, rest.head? = some c → isBoundary c = true

def isWord : Text → Bool
  | [] => false
  | c :: text => isWordChar c && text.all isWordPart

/-- Digits with at most one dot among them, and at least one digit. -/
def isNumber (text : Text) : Bool :=
  text.any Char.isDigit && text.all (fun c ↦ c.isDigit || c = '.') && text.count '.' ≤ 1

theorem start_plain (hd : Usual d) {c : Char} (hc : c ∉ ['\'', '"', '`', '[']) :
    start d c = plainStart c := by
  rw [start, hd c hc]
  rfl

theorem not_quote_of_isWordPart {c : Char} (h : isWordPart c = true) :
    c ∉ ['\'', '"', '`', '['] := by
  intro hmem
  simp only [List.mem_cons, List.not_mem_nil, or_false] at hmem
  rcases hmem with rfl | rfl | rfl | rfl <;> exact absurd h (by decide)

theorem isSpace_of_isWordPart {c : Char} (h : isWordPart c = true) : isSpace c = false := by
  by_contra hspace
  have hspace : isSpace c = true := by simpa using hspace
  have hdigit : c.isDigit = true := by simpa [isWordPart, isWordChar_of_isSpace hspace] using h
  rw [isSpace_of_isDigit hdigit] at hspace
  exact Bool.false_ne_true hspace

theorem start_wordChar (hd : Usual d) {c : Char} (h : isWordChar c = true) :
    start d c = some (.word [c]) := by
  have hpart : isWordPart c = true := by simp [isWordPart, h]
  simp [start, plainStart, hd c (not_quote_of_isWordPart hpart), isSpace_of_isWordPart hpart, h]

theorem start_digit (hd : Usual d) {c : Char} (h : c.isDigit = true) :
    start d c = some (.num [c]) := by
  have hpart : isWordPart c = true := by simp [isWordPart, h]
  simp [start, plainStart, hd c (not_quote_of_isWordPart hpart), isSpace_of_isWordPart hpart,
    isWordChar_of_isDigit h, h]

theorem scan_wordParts {parts : Text} (hparts : parts.all isWordPart = true) (read : Text)
    (out : List Token) (rest : Text) :
    scan d (.word read) out (parts ++ rest) = scan d (.word (read ++ parts)) out rest := by
  induction parts generalizing read with
  | nil => simp
  | cons c parts ih =>
    rw [List.all_cons, Bool.and_eq_true] at hparts
    have hc : isWordChar c = true ∨ c.isDigit = true := by simpa [isWordPart] using hparts.1
    have hstep : step d (.word read) c = some (none, .word (read ++ [c])) := if_pos hc
    rw [List.cons_append, scan_cons hstep, Option.toList_none, List.nil_append, ih hparts.2]
    simp

theorem scan_word (hd : Usual d) {word rest : Text} (hword : isWord word = true) (hrest : Ends rest)
    (out : List Token) :
    scan d .between out (word ++ rest) = scan d .between (.word word :: out) rest := by
  cases word with
  | nil => exact absurd hword (by decide)
  | cons c word =>
    rw [isWord, Bool.and_eq_true] at hword
    have hstep : step d .between c = some (none, .word [c]) := by
      simp [step, start_wordChar hd hword.1]
    rw [List.cons_append, scan_cons hstep, Option.toList_none, List.nil_append,
      scan_wordParts hword.2]
    refine scan_pending rfl (fun c hc ↦ ?_) out
    have hbound := hrest c hc
    simp only [isBoundary, isWordPart, Bool.and_eq_true, decide_eq_true_eq, Bool.not_eq_true',
      Bool.or_eq_false_iff, List.mem_cons, List.not_mem_nil, or_false, not_or] at hbound
    obtain ⟨⟨hquote, hdouble, hback, hbracket, _, _⟩, hword, hdigit⟩ := hbound
    have hplain : d c = none := hd c (by simp [hquote, hdouble, hback, hbracket])
    simp [step, hword, hdigit, hplain]

theorem scan_digits {digits rest : Text} (read : Text)
    (hdigits : ∀ c ∈ digits, c.isDigit = true ∨ c = '.') (hdots : (read ++ digits).count '.' ≤ 1)
    (out : List Token) :
    scan d (.num read) out (digits ++ rest) = scan d (.num (read ++ digits)) out rest := by
  induction digits generalizing read with
  | nil => simp
  | cons c digits ih =>
    have hc : c.isDigit = true ∨ c = '.' ∧ '.' ∉ read := by
      refine (hdigits c (.head _)).imp_right fun hdot ↦ ⟨hdot, fun hmem ↦ ?_⟩
      have hpos := List.count_pos_iff.mpr hmem
      rw [List.count_append, hdot, List.count_cons_self] at hdots
      omega
    have hstep : step d (.num read) c = some (none, .num (read ++ [c])) := if_pos hc
    rw [List.cons_append, scan_cons hstep, Option.toList_none, List.nil_append,
      ih (read ++ [c]) (fun c hc ↦ hdigits c (.tail _ hc)) (by simpa using hdots)]
    simp

theorem scan_num_end {text rest : Text} (hrest : Ends rest) (out : List Token) :
    scan d (.num text) out rest = scan d .between (.num text :: out) rest := by
  refine scan_pending rfl (fun c hc ↦ ?_) out
  have hbound := hrest c hc
  simp only [isBoundary, isWordPart, Bool.and_eq_true, decide_eq_true_eq, Bool.not_eq_true',
    Bool.or_eq_false_iff, List.mem_cons, List.not_mem_nil, or_false, not_or] at hbound
  obtain ⟨⟨_, _, _, _, _, hdot⟩, hword, hdigit⟩ := hbound
  simp [step, hword, hdigit, hdot]

theorem scan_number (hd : Usual d) {text rest : Text} (htext : isNumber text = true)
    (hrest : Ends rest) (out : List Token) :
    scan d .between out (text ++ rest) = scan d .between (.num text :: out) rest := by
  simp only [isNumber, Bool.and_eq_true, List.any_eq_true, List.all_eq_true, Bool.or_eq_true,
    decide_eq_true_eq] at htext
  obtain ⟨⟨⟨digit, hmem, hdigit⟩, hall⟩, hdots⟩ := htext
  cases text with
  | nil => exact absurd hmem (List.not_mem_nil)
  | cons c text =>
    rcases hall c (.head _) with hc | rfl
    · have hstep : step d .between c = some (none, .num [c]) := by simp [step, start_digit hd hc]
      rw [List.cons_append, scan_cons hstep, Option.toList_none, List.nil_append,
        scan_digits [c] (fun c hc ↦ hall c (.tail _ hc)) hdots, scan_num_end hrest]
      rfl
    · have hnodot : '.' ∉ text := by
        rw [List.count_cons_self] at hdots
        exact List.count_eq_zero.mp (by omega)
      cases text with
      | nil =>
        rw [List.mem_singleton.mp hmem] at hdigit
        exact absurd hdigit (by decide)
      | cons next text =>
        have hnext : next.isDigit = true :=
          (hall next (.tail _ (.head _))).resolve_right fun h ↦ hnodot (h ▸ .head _)
        have hdot : start d '.' = some .dot := start_plain hd (by decide)
        have hstep : step d .between '.' = some (none, .dot) := by simp [step, hdot]
        have hsecond : step d .dot next = some (none, .num ['.', next]) := if_pos hnext
        rw [List.cons_append, scan_cons hstep, List.cons_append, scan_cons hsecond,
          Option.toList_none, List.nil_append, List.nil_append,
          scan_digits ['.', next] (fun c hc ↦ hall c (.tail _ (.tail _ hc))) hdots,
          scan_num_end hrest]
        rfl

/-- A dot that no digit follows. -/
theorem scan_dot (hd : Usual d) {rest : Text} (hrest : ∀ c, rest.head? = some c → c.isDigit = false)
    (out : List Token) : scan d .between out ('.' :: rest) = scan d .between (.punct '.' :: out) rest := by
  have hstep : step d .between '.' = some (none, .dot) := by
    rw [step, start_plain hd (by decide)]
    rfl
  rw [scan_cons hstep]
  exact scan_pending rfl (fun c hc ↦ by simp [step, hrest c hc]) out

/-- The operators, each of one or two characters. -/
def operators : List Text :=
  [['='], ['<'], ['>'], ['+'], ['-'], ['<', '>'], ['<', '='], ['>', '='], ['!', '=']]

theorem scan_op (hd : Usual d) {op rest : Text} (hop : op ∈ operators)
    (hrest : ∀ c, rest.head? = some c → c ∉ ['=', '<', '>', '!', '+', '-']) (out : List Token) :
    scan d .between out (op ++ rest) = scan d .between (.op op :: out) rest := by
  have hread : scan d .between out (op ++ rest) = scan d (.op op) out rest := by
    have hfirst {c : Char} (hc : c ∈ ['=', '<', '>', '!', '+', '-']) :
        step d .between c = some (none, .op [c]) := by
      simp only [List.mem_cons, List.not_mem_nil, or_false] at hc
      rcases hc with rfl | rfl | rfl | rfl | rfl | rfl <;>
        rw [step, start_plain hd (by decide)] <;> rfl
    simp only [operators, List.mem_cons, List.not_mem_nil, or_false] at hop
    rcases hop with rfl | rfl | rfl | rfl | rfl | rfl | rfl | rfl | rfl <;>
      exact scan_cons (hfirst (by decide))
  rw [hread]
  exact scan_pending rfl (fun c hc ↦ by rw [step, if_neg (hrest c hc)]) out

/-! ## Pieces of a statement -/

/-- The tokens a piece completes, the last one first, and the mode behind it. -/
def advance (d : Dialect) : Mode → Text → Option (List Token × Mode)
  | mode, [] => some ([], mode)
  | mode, c :: rest =>
    (step d mode c).bind fun (token, mode) ↦
      (advance d mode rest).map fun (tokens, mode) ↦ (tokens ++ token.toList, mode)

theorem scan_advance {mode last : Mode} {text : Text} {tokens : List Token}
    (h : advance d mode text = some (tokens, last)) (out : List Token) (rest : Text) :
    scan d mode out (text ++ rest) = scan d last (tokens ++ out) rest := by
  induction text generalizing mode tokens out with
  | nil =>
    obtain ⟨rfl, rfl⟩ := by simpa [advance] using h
    rfl
  | cons c text ih =>
    obtain ⟨⟨token, next⟩, hstep, hmap⟩ := Option.bind_eq_some_iff.mp h
    obtain ⟨⟨read, last⟩, hread, heq⟩ := Option.map_eq_some_iff.mp hmap
    obtain ⟨rfl, rfl⟩ := Prod.mk.inj heq
    rw [List.cons_append, scan_cons hstep, ih hread, List.append_assoc]

theorem step_plain (hd : Usual d) {c : Char} (hc : c ∉ ['\'', '"', '`', '[']) (mode : Mode) :
    step d mode c = step (fun _ ↦ none) mode c := by
  have hstart : start d c = start (fun _ ↦ none) c := by
    rw [start_plain hd hc]
    rfl
  cases mode <;> simp [step, hstart, hd c hc]

theorem advance_plain (hd : Usual d) {text : Text}
    (htext : ∀ c ∈ text, c ∉ ['\'', '"', '`', '[']) (mode : Mode) :
    advance d mode text = advance (fun _ ↦ none) mode text := by
  induction text generalizing mode with
  | nil => rfl
  | cons c text ih =>
    have htail := ih fun c hc ↦ htext c (.tail _ hc)
    simp only [advance, step_plain hd (htext c (.head _)), htail]

/-- `text` reads as `tokens` in front of any text that does not go on with them. -/
def Reads (d : Dialect) (text : Text) (tokens : List Token) : Prop :=
  ∀ out rest, Ends rest →
    scan d .between out (text ++ rest) = scan d .between (tokens.reverse ++ out) rest

/-- `text` reads as `tokens` in front of any text. -/
def Cuts (d : Dialect) (text : Text) (tokens : List Token) : Prop :=
  ∀ out rest, scan d .between out (text ++ rest) = scan d .between (tokens.reverse ++ out) rest

/-- Nothing goes on into `text`. -/
def Opens (text : Text) : Prop := ∃ c rest, text = c :: rest ∧ isBoundary c = true

variable {text more : Text} {tokens others : List Token}

theorem Opens.ends (h : Opens text) (rest : Text) : Ends (text ++ rest) := by
  obtain ⟨c, more, rfl, hc⟩ := h
  intro next hnext
  obtain rfl : c = next := by simpa using hnext
  exact hc

theorem Opens.append (h : Opens text) (more : Text) : Opens (text ++ more) := by
  obtain ⟨c, rest, rfl, hc⟩ := h
  exact ⟨c, rest ++ more, rfl, hc⟩

theorem cuts_nil : Cuts d [] [] := fun _ _ ↦ rfl

theorem Cuts.reads (h : Cuts d text tokens) : Reads d text tokens := fun out rest _ ↦ h out rest

theorem Cuts.append_reads (h : Cuts d text tokens) (hmore : Reads d more others) :
    Reads d (text ++ more) (tokens ++ others) := by
  intro out rest hrest
  rw [List.append_assoc, h, hmore _ _ hrest, List.reverse_append, List.append_assoc]

theorem Reads.append_cuts (h : Reads d text tokens) (hmore : Cuts d more others)
    (hopens : Opens more) : Cuts d (text ++ more) (tokens ++ others) := by
  intro out rest
  rw [List.append_assoc, h _ _ (hopens.ends rest), hmore, List.reverse_append, List.append_assoc]

theorem Reads.append (h : Reads d text tokens) (hmore : Reads d more others) (hopens : Opens more) :
    Reads d (text ++ more) (tokens ++ others) := by
  intro out rest hrest
  rw [List.append_assoc, h _ _ (hopens.ends rest), hmore _ _ hrest, List.reverse_append,
    List.append_assoc]

theorem Reads.lex (h : Reads d text tokens) : lex d text = some tokens := by
  have hread := h [] [] nofun
  rw [List.append_nil, List.append_nil] at hread
  unfold SqlLex.lex
  rw [hread]
  simp [scan, finish]

/-- The tokens of a phrase without quotes that nothing behind it can go on with. -/
def phrase (text : Text) : Option (List Token) :=
  match advance (fun _ ↦ none) .between text with
  | some (tokens, .between) => some tokens.reverse
  | some (tokens, .punct c) => some (.punct c :: tokens).reverse
  | _ => none

theorem cuts_phrase (hd : Usual d) (htext : ∀ c ∈ text, c ∉ ['\'', '"', '`', '['])
    (h : phrase text = some tokens) : Cuts d text tokens := by
  intro out rest
  have hplain := advance_plain hd htext .between
  unfold phrase at h
  split at h
  · next read hread =>
    obtain rfl : read.reverse = tokens := by simpa using h
    rw [scan_advance (hplain.trans hread), List.reverse_reverse]
  · next read c hread =>
    obtain rfl : (.punct c :: read).reverse = tokens := by simpa using h
    rw [scan_advance (hplain.trans hread), List.reverse_reverse]
    exact scan_pending rfl (fun _ _ ↦ rfl) _
  · exact absurd h nofun

theorem reads_word (hd : Usual d) (hword : isWord text = true) : Reads d text [.word text] :=
  fun out _ hrest ↦ scan_word hd hword hrest out

theorem reads_number (hd : Usual d) (htext : isNumber text = true) : Reads d text [.num text] :=
  fun out _ hrest ↦ scan_number hd htext hrest out

theorem isNumber_ne_nil (h : isNumber text = true) : text ≠ [] := by
  rintro rfl
  exact absurd h (by decide)

theorem isNumber_not_operator (h : isNumber text = true) {c : Char} (hc : c ∈ text) :
    c ∉ ['=', '<', '>', '!', '+', '-'] := by
  simp only [isNumber, Bool.and_eq_true, List.all_eq_true, Bool.or_eq_true, decide_eq_true_eq] at h
  have hdigit := h.1.2 c hc
  intro hmem
  simp only [List.mem_cons, List.not_mem_nil, or_false] at hmem
  rcases hmem with rfl | rfl | rfl | rfl | rfl | rfl <;> exact absurd hdigit (by decide)

/-- A sign and the number behind it are two tokens. -/
theorem reads_sign (hd : Usual d) {sign : Char} (hsign : [sign] ∈ operators)
    (hnumber : isNumber text = true) : Reads d (sign :: text) [.op [sign], .num text] := by
  intro out rest hrest
  have hop : scan d .between out ([sign] ++ (text ++ rest)) =
      scan d .between (.op [sign] :: out) (text ++ rest) := by
    refine scan_op hd hsign (fun c hc ↦ ?_) out
    obtain ⟨first, text, rfl⟩ := List.exists_cons_of_ne_nil (isNumber_ne_nil hnumber)
    obtain rfl : first = c := by simpa using hc
    exact isNumber_not_operator hnumber (.head _)
  rw [List.cons_append, ← List.singleton_append, hop, scan_number hd hnumber hrest]
  rfl

/-- The tokens of a number with or without a sign. -/
def numberTokens : Text → List Token
  | '+' :: text => [.op ['+'], .num text]
  | '-' :: text => [.op ['-'], .num text]
  | text => [.num text]

def isSigned : Text → Bool
  | '+' :: text => isNumber text
  | '-' :: text => isNumber text
  | text => isNumber text

theorem reads_signed (hd : Usual d) (h : isSigned text = true) : Reads d text (numberTokens text) := by
  unfold isSigned at h
  unfold numberTokens
  split at h
  · exact reads_sign hd (by decide) h
  · exact reads_sign hd (by decide) h
  · exact reads_number hd h

theorem Ends.ne_quote {rest : Text} (hrest : Ends rest) {c : Char} (hc : isBoundary c = false) :
    rest.head? ≠ some c := fun h ↦ by simp [hrest c h] at hc

theorem reads_quoted {c : Char} (hopen : d c = some q) (hclose : isBoundary q.close = false)
    {spelled : Text} (h : Spells q spelled text) :
    Reads d (c :: (spelled ++ [q.close])) [q.token text] := by
  intro out rest hrest
  rw [List.cons_append, List.append_assoc, List.singleton_append]
  exact scan_quoted hopen h (hrest.ne_quote hclose) out

/-- Pieces with a separator between them. -/
theorem reads_intercalate {ι : Type*} {sep : Text} {between : List Token} (hsep : Cuts d sep between)
    (hopens : Opens sep) (piece : ι → Text) (read : ι → List Token) (first : ι) (items : List ι)
    (hpieces : ∀ i ∈ first :: items, Reads d (piece i) (read i)) :
    Reads d (sep.intercalate ((first :: items).map piece))
      (between.intercalate ((first :: items).map read)) := by
  induction items generalizing first with
  | nil => simpa [List.intercalate_singleton] using hpieces first (.head _)
  | cons next items ih =>
    have htail := ih next fun i hi ↦ hpieces i (.tail _ hi)
    rw [List.map_cons, List.map_cons, List.map_cons, List.map_cons, List.intercalate_cons_cons,
      List.intercalate_cons_cons]
    exact ((hpieces first (.head _)).append_cuts hsep hopens).append_reads htail

/-! ## Reading tokens -/

def keyword (name : String) : Token := .word name.toList

def eat (token : Token) : List Token → Option (List Token)
  | [] => none
  | first :: rest => if first = token then some rest else none

@[simp]
theorem eat_cons (token : Token) (rest : List Token) : eat token (token :: rest) = some rest :=
  if_pos rfl

/-- Items with a token between them, at most as many as the fuel. -/
def parseSeparated {α : Type*} (item : List Token → Option (α × List Token)) (sep : Token) :
    ℕ → List Token → Option (List α × List Token)
  | 0, _ => none
  | fuel + 1, tokens => do
    let (a, rest) ← item tokens
    match eat sep rest with
    | none => some ([a], rest)
    | some rest =>
      let (items, rest) ← parseSeparated item sep fuel rest
      some (a :: items, rest)

theorem parseSeparated_intercalate {ι α : Type*} {item : List Token → Option (α × List Token)}
    {sep : Token} {write : ι → List Token} {read : ι → α} {more : List Token}
    (hmore : eat sep more = none) (first : ι) (items : List ι)
    (hitems : ∀ i ∈ first :: items, ∀ rest, (rest = more ∨ ∃ later, rest = sep :: later) →
      item (write i ++ rest) = some (read i, rest)) (fuel : ℕ) (hfuel : items.length < fuel) :
    parseSeparated item sep fuel ([sep].intercalate ((first :: items).map write) ++ more) =
      some ((first :: items).map read, more) := by
  induction items generalizing first fuel with
  | nil =>
    obtain ⟨fuel, rfl⟩ := Nat.exists_eq_add_one_of_ne_zero (Nat.ne_of_gt hfuel)
    rw [List.map_singleton, List.intercalate_singleton, parseSeparated,
      hitems first (.head _) more (.inl rfl)]
    simp [hmore]
  | cons next items ih =>
    obtain ⟨fuel, rfl⟩ := Nat.exists_eq_add_one_of_ne_zero (Nat.ne_of_gt (Nat.zero_lt_of_lt hfuel))
    have htail := ih next (fun i hi ↦ hitems i (.tail _ hi)) fuel (by simpa using hfuel)
    rw [List.map_cons, List.map_cons, List.intercalate_cons_cons, List.append_assoc,
      List.append_assoc, ← List.map_cons, List.singleton_append, parseSeparated,
      hitems first (.head _) _ (.inr ⟨_, rfl⟩)]
    simp only [Option.bind_eq_bind, Option.bind_some, eat_cons, htail]
    rfl

theorem length_lt_intercalate {ι : Type*} (sep : Token) (write : ι → List Token) (first : ι)
    (items : List ι) (hwrite : ∀ i ∈ first :: items, write i ≠ []) :
    items.length < ([sep].intercalate ((first :: items).map write)).length := by
  induction items generalizing first with
  | nil => simpa [List.intercalate_singleton] using List.length_pos_of_ne_nil (hwrite first (.head _))
  | cons next items ih =>
    have htail := ih next fun i hi ↦ hwrite i (.tail _ hi)
    rw [List.map_cons] at htail
    rw [List.map_cons, List.map_cons, List.intercalate_cons_cons]
    simp only [List.length_append, List.length_cons, List.length_nil]
    omega

/-- A list of items is read back, with its own length for fuel. -/
theorem parseSeparated_tokens {ι α : Type*} {item : List Token → Option (α × List Token)}
    {sep : Token} (write : ι → List Token) (read : ι → α) {more : List Token}
    (hmore : eat sep more = none) {items : List ι} (hne : items ≠ []) (hwrite : ∀ i ∈ items, write i ≠ [])
    (hitems : ∀ i ∈ items, ∀ rest, (rest = more ∨ ∃ later, rest = sep :: later) →
      item (write i ++ rest) = some (read i, rest)) :
    parseSeparated item sep ([sep].intercalate (items.map write) ++ more).length
      ([sep].intercalate (items.map write) ++ more) = some (items.map read, more) := by
  obtain ⟨first, items, rfl⟩ := List.exists_cons_of_ne_nil hne
  refine parseSeparated_intercalate hmore first items hitems _ ?_
  rw [List.length_append]
  exact Nat.lt_add_right _ (length_lt_intercalate sep write first items hwrite)

end Squaero.Lib.SqlLex
