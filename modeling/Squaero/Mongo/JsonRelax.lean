import Squaero.Mongo.JsonCheck

/-!
# Relaxed JSON

`drivers/mongodb/src/utils/json_relax.c`: bare keys, single-quoted strings and the value constructors of
mongosh rewritten to JSON. A text that is JSON already stays as it is.
-/

namespace Squaero.Mongo

open Squaero.Lib

def isIdentStart (c : Char) : Bool := c.isAlpha || c = '_' || c = '$'

def isIdentChar (c : Char) : Bool := c.isAlphanum || c = '_' || c = '$' || c = '.'

/-- `copy_dquote` behind the opening quote: what it writes, and the text past the closing one. -/
def copyDquote : Text → Text × Text
  | [] => ([], [])
  | '\\' :: c :: rest => let (out, after) := copyDquote rest; ('\\' :: c :: out, after)
  | '"' :: rest => (['"'], rest)
  | c :: rest => let (out, after) := copyDquote rest; (c :: out, after)

/-- `rewrite_squote` behind the opening quote. A string without an end is closed. -/
def rewriteSquote : Text → Text × Text
  | [] => (['"'], [])
  | '\\' :: '\'' :: rest => let (out, after) := rewriteSquote rest; ('\'' :: out, after)
  | '\\' :: c :: rest => let (out, after) := rewriteSquote rest; ('\\' :: c :: out, after)
  | '\'' :: rest => (['"'], rest)
  | '"' :: rest => let (out, after) := rewriteSquote rest; ('\\' :: '"' :: out, after)
  | c :: rest => let (out, after) := rewriteSquote rest; (c :: out, after)

/-- `k_ctors`. -/
def ctors : List (Text × Text) :=
  [("ObjectId".toList, "$oid".toList), ("ISODate".toList, "$date".toList), ("Date".toList, "$date".toList),
    ("NumberLong".toList, "$numberLong".toList), ("NumberInt".toList, "$numberInt".toList),
    ("NumberDecimal".toList, "$numberDecimal".toList)]

def skipSp (p : Text) : Text := p.dropWhile isSpace

/-- The argument of a constructor as a string, and the text past it. -/
def ctorArg : Text → Option (Text × Text)
  | [] => none
  | c :: rest =>
    if c = '"' then some ('"' :: (copyDquote rest).1, (copyDquote rest).2)
    else if c = '\'' then some ('"' :: (rewriteSquote rest).1, (rewriteSquote rest).2)
    else if c = '-' ∨ c = '+' ∨ c.isDigit then
      let inNumber (c : Char) : Bool := c ∈ ['-', '+', '.', 'e', 'E'] || c.isDigit
      some ('"' :: ((c :: rest).takeWhile inNumber ++ ['"']), (c :: rest).dropWhile inNumber)
    else none

/-- `rewrite_ctor` at the start of an identifier: what it writes, and the text past the parenthesis. -/
def rewriteCtor (text : Text) : Option (Text × Text) := do
  let (_, key) ← ctors.find? (·.1 = text.takeWhile isIdentChar)
  let p := skipSp (text.dropWhile isIdentChar)
  if p.head? ≠ some '(' then none
  else
    let (arg, p) ← ctorArg (skipSp (p.drop 1))
    if (skipSp p).head? ≠ some ')' then none
    else some ('{' :: '"' :: (key ++ ('"' :: ':' :: (arg ++ ['}']))), (skipSp p).drop 1)

/-- One round of the loop on a text that is not empty: what it writes, `prev`, and the text past it. -/
def relaxStep (prev : Option Char) (c : Char) (rest : Text) : Text × Option Char × Text :=
  if isSpace c then ([c], prev, rest)
  else if c = '"' then ('"' :: (copyDquote rest).1, some '"', (copyDquote rest).2)
  else if c = '\'' then ('"' :: (rewriteSquote rest).1, some '"', (rewriteSquote rest).2)
  else if isIdentStart c then
    let ident := c :: rest.takeWhile isIdentChar
    let after := rest.dropWhile isIdentChar
    if (prev = some '{' ∨ prev = some ',') ∧ (skipSp after).head? = some ':' then
      ('"' :: (ident ++ ['"']), some '"', after)
    else if ident = "new".toList ∧ after.head?.any isSpace then ([], prev, skipSp after)
    else
      match rewriteCtor (c :: rest) with
      | some (out, after) => (out, some '}', after)
      | none => (ident, ident.getLast?, after)
  else ([c], some c, rest)

/-- The loop of `mongo_json_relax`; `skip` counts the characters that a round has passed. -/
def relaxLoop : ℕ → Option Char → Text → Text
  | _, _, [] => []
  | skip + 1, prev, _ :: rest => relaxLoop skip prev rest
  | 0, prev, c :: rest =>
    let (out, prev, after) := relaxStep prev c rest
    out ++ relaxLoop (rest.length - after.length) prev rest

def mongoJsonRelax (input : Text) : Text := relaxLoop 0 none input

example : mongoJsonRelax "\x7ba: 'it', _id: ObjectId(\"5\"), b: new Date(7)\x7d".toList =
    "\x7b\"a\": \"it\", \"_id\": \x7b\"$oid\":\"5\"\x7d, \"b\": \x7b\"$date\":\"7\"\x7d\x7d".toList := by
  decide

/-! ## JSON stays as it is -/

theorem relaxLoop_skip (prev : Option Char) (passed after : Text) :
    relaxLoop passed.length prev (passed ++ after) = relaxLoop 0 prev after := by
  induction passed with
  | nil => rfl
  | cons c passed ih => exact ih

/-- A round that passes over `passed`. -/
theorem relaxLoop_step {prev next : Option Char} {c : Char} {passed after out : Text}
    (h : relaxStep prev c (passed ++ after) = (out, next, after)) :
    relaxLoop 0 prev (c :: (passed ++ after)) = out ++ relaxLoop 0 next after := by
  rw [relaxLoop, h]
  simp only [List.length_append, Nat.add_sub_cancel]
  rw [relaxLoop_skip]

theorem copyDquote_plain {c : Char} (hquote : c ≠ '"') (hescape : c ≠ '\\') (rest : Text) :
    copyDquote (c :: rest) = (c :: (copyDquote rest).1, (copyDquote rest).2) := by
  simp [copyDquote, hescape]

theorem copyDquote_body {body : Text} {units : List ℕ} (h : Json.Body body units) (after : Text) :
    copyDquote (body ++ '"' :: after) = (body ++ ['"'], after) := by
  induction h with
  | nil => simp [copyDquote]
  | plain hquote hescape _ _ ih => simp [copyDquote, hescape, ih]
  | escape he _ ih => simp [copyDquote, ih]
  | @unit a b c d unit text units hunit _ ih =>
    obtain ⟨ha, hb, hc, hd⟩ := by simpa using Json.ne_of_hex4 hunit
    simp [copyDquote, copyDquote_plain ha.1 ha.2, copyDquote_plain hb.1 hb.2, copyDquote_plain hc.1 hc.2,
      copyDquote_plain hd.1 hd.2, ih]

/-- What stands behind a value: no name goes on there, and no key ends there. -/
structure Ends (rest : Text) : Prop where
  ident : ∀ c, rest.head? = some c → isIdentChar c = false
  key : (skipSp rest).head? ≠ some ':'

/-- The loop writes `text` as it is. -/
def Stays (text : Text) : Prop := ∀ prev rest, Ends rest →
  ∃ next, relaxLoop 0 prev (text ++ rest) = text ++ relaxLoop 0 next rest

theorem isSpace_of_isBlank {c : Char} (h : Json.isBlank c = true) : isSpace c = true := by
  simp only [Json.isBlank, Bool.or_eq_true, decide_eq_true_eq] at h
  rcases h with ((rfl | rfl) | rfl) | rfl <;> decide

theorem skipSp_blanks {blanks : Text} (h : Json.Blanks blanks) (rest : Text) :
    skipSp (blanks ++ rest) = skipSp rest := by
  unfold skipSp
  rw [List.dropWhile_append_of_pos fun c hc ↦ isSpace_of_isBlank (h c hc)]

theorem relaxLoop_blanks {blanks : Text} (h : Json.Blanks blanks) (prev : Option Char) (rest : Text) :
    relaxLoop 0 prev (blanks ++ rest) = blanks ++ relaxLoop 0 prev rest := by
  induction blanks with
  | nil => rfl
  | cons c blanks ih =>
    have hstep : relaxStep prev c ([] ++ (blanks ++ rest)) = ([c], prev, blanks ++ rest) :=
      if_pos (isSpace_of_isBlank (h c (.head _)))
    rw [List.cons_append, ← List.nil_append (blanks ++ rest), relaxLoop_step hstep,
      ih fun d hd ↦ h d (.tail _ hd)]
    rfl

/-- A character that stands for itself. -/
def isPlain (c : Char) : Bool := !isSpace c && c != '"' && c != '\'' && !isIdentStart c

theorem relaxLoop_plain {c : Char} (h : isPlain c = true) (prev : Option Char) (rest : Text) :
    relaxLoop 0 prev (c :: rest) = c :: relaxLoop 0 (some c) rest := by
  simp only [isPlain, Bool.and_eq_true, Bool.not_eq_true', bne_iff_ne] at h
  obtain ⟨⟨⟨hspace, hdouble⟩, hsingle⟩, hident⟩ := h
  have hstep : relaxStep prev c ([] ++ rest) = ([c], some c, rest) := by
    simp [relaxStep, hspace, hdouble, hsingle, hident]
  exact relaxLoop_step hstep

theorem relaxLoop_string {body : Text} {units : List ℕ} (h : Json.Body body units) (prev : Option Char)
    (rest : Text) : relaxLoop 0 prev ('"' :: (body ++ '"' :: rest)) =
      '"' :: (body ++ '"' :: relaxLoop 0 (some '"') rest) := by
  have hcopy := copyDquote_body h rest
  have hstep : relaxStep prev '"' ((body ++ ['"']) ++ rest) = ('"' :: (body ++ ['"']), some '"', rest) := by
    have hsplit : (body ++ ['"']) ++ rest = body ++ '"' :: rest := by simp
    rw [hsplit]
    simp [relaxStep, hcopy, show isSpace '"' = false from rfl]
  have hloop := relaxLoop_step hstep
  simpa using hloop

/-- A name in the place of a value. -/
theorem relaxLoop_ident {prev : Option Char} {c : Char} {more rest : Text} (hc : isIdentStart c = true)
    (hmore : ∀ d ∈ more, isIdentChar d = true) (hrest : ∀ d, rest.head? = some d → isIdentChar d = false)
    (hkey : (prev ≠ some '{' ∧ prev ≠ some ',') ∨ (skipSp rest).head? ≠ some ':')
    (hnew : c :: more ≠ "new".toList) (hctor : c :: more ∉ ctors.map Prod.fst) :
    ∃ next, relaxLoop 0 prev (c :: (more ++ rest)) = c :: (more ++ relaxLoop 0 next rest) := by
  have hnone : rest.takeWhile isIdentChar = [] ∧ rest.dropWhile isIdentChar = rest := by
    cases rest with
    | nil => exact ⟨rfl, rfl⟩
    | cons d rest => simp [hrest d rfl]
  have htake : (more ++ rest).takeWhile isIdentChar = more := by
    rw [List.takeWhile_append_of_pos hmore, hnone.1, List.append_nil]
  have hdrop : (more ++ rest).dropWhile isIdentChar = rest := by
    rw [List.dropWhile_append_of_pos hmore, hnone.2]
  have hidentChar : isIdentChar c = true := by
    simp only [isIdentStart, isIdentChar, Char.isAlphanum, Bool.or_eq_true, decide_eq_true_eq] at hc ⊢
    tauto
  have hfind : rewriteCtor (c :: (more ++ rest)) = none := by
    have hall : ctors.find? (·.1 = (c :: (more ++ rest)).takeWhile isIdentChar) = none := by
      rw [List.takeWhile_cons_of_pos hidentChar, htake, List.find?_eq_none]
      intro ctor hmem heq
      exact hctor (List.mem_map.mpr ⟨ctor, hmem, of_decide_eq_true heq⟩)
    unfold rewriteCtor
    rw [hall]
    rfl
  have hstart (d : Char) (hd : isIdentStart d = false) : c ≠ d := by
    rintro rfl
    exact absurd hc (by simp [hd])
  have hspace : isSpace c = false := by
    by_contra hspace
    have hword := isWordChar_of_isSpace (Bool.not_eq_false _ ▸ hspace)
    simp only [isWordChar, Bool.or_eq_false_iff] at hword
    have hdollar : c = '$' := by simpa [isIdentStart, hword] using hc
    exact hspace (hdollar ▸ by decide)
  have hstep : relaxStep prev c (more ++ rest) = (c :: more, (c :: more).getLast?, rest) := by
    have hnotKey : ¬ ((prev = some '{' ∨ prev = some ',') ∧ (skipSp rest).head? = some ':') := by
      tauto
    have hnotNew : ¬ (c :: more = "new".toList ∧ rest.head?.any isSpace = true) := fun h ↦ hnew h.1
    unfold relaxStep
    simp only [hspace, hstart '"' (by decide), hstart '\'' (by decide), hc, htake, hdrop, if_true, hfind,
      if_neg hnotKey, if_neg hnotNew]
    simp
  refine ⟨(c :: more).getLast?, ?_⟩
  rw [relaxLoop_step hstep]
  rfl

/-- Plain characters, and what `prev` is behind them. -/
theorem relaxLoop_plains {text : Text} (h : ∀ c ∈ text, isPlain c = true) (prev : Option Char) (rest : Text) :
    relaxLoop 0 prev (text ++ rest) = text ++ relaxLoop 0 (text.getLast?.or prev) rest := by
  induction text generalizing prev with
  | nil => rfl
  | cons c text ih =>
    rw [List.cons_append, relaxLoop_plain (h c (.head _)), ih fun d hd ↦ h d (.tail _ hd)]
    cases text <;> simp [List.getLast?_cons]

theorem isPlain_of_isDigit {c : Char} (h : c.isDigit = true) : isPlain c = true := by
  have hne (d : Char) (hd : d.isDigit = false) : c ≠ d := by
    rintro rfl
    exact absurd h (by simp [hd])
  have hword := isWordChar_of_isDigit h
  simp only [isWordChar, Bool.or_eq_false_iff] at hword
  simp [isPlain, isSpace_of_isDigit h, hne '"' (by decide), hne '\'' (by decide), isIdentStart, hword,
    hne '_' (by decide), hne '$' (by decide)]

theorem stays_exponent {exponent : Text} (h : Json.IsExponent exponent) {prev : Option Char}
    (hprev : prev ≠ some '{' ∧ prev ≠ some ',') {rest : Text} (hrest : Ends rest) :
    ∃ next, relaxLoop 0 prev (exponent ++ rest) = exponent ++ relaxLoop 0 next rest := by
  obtain rfl | ⟨e, sign, digits, he, hsign, hdigits, rfl⟩ := h
  · exact ⟨prev, rfl⟩
  have hident : isIdentStart e = true := by
    simp only [List.mem_cons, List.not_mem_nil, or_false] at he
    rcases he with rfl | rfl <;> decide
  have hnew (more : Text) : e :: more ≠ "new".toList := by
    simp only [List.mem_cons, List.not_mem_nil, or_false] at he
    rcases he with rfl | rfl <;> simp
  have hctor (more : Text) : e :: more ∉ ctors.map Prod.fst := by
    simp only [List.mem_cons, List.not_mem_nil, or_false] at he
    rcases he with rfl | rfl <;> simp [ctors]
  have hchar (d : Char) (hd : d ∈ digits) : isIdentChar d = true := by
    simp [isIdentChar, Char.isAlphanum, hdigits.2 d hd]
  simp only [List.mem_cons, List.not_mem_nil, or_false] at hsign
  rcases hsign with rfl | rfl | rfl
  · exact relaxLoop_ident hident hchar hrest.ident (.inl hprev) (hnew _) (hctor _)
  all_goals
    -- the sign ends the name
    have hplain := relaxLoop_plains (fun d hd ↦ isPlain_of_isDigit (hdigits.2 d hd))
    have hsigned (sign : Char) (hsign : isPlain sign = true ∧ isIdentChar sign = false) :
        ∃ next, relaxLoop 0 prev (e :: sign :: (digits ++ rest)) =
          e :: sign :: (digits ++ relaxLoop 0 next rest) := by
      have hstops (d : Char) (hd : (sign :: (digits ++ rest)).head? = some d) : isIdentChar d = false :=
        Option.some.inj hd ▸ hsign.2
      have hnone : ∀ d ∈ [], isIdentChar d = true := nofun
      obtain ⟨next, hident⟩ := relaxLoop_ident hident hnone hstops (.inl hprev) (hnew _) (hctor _)
      refine ⟨digits.getLast?.or (some sign), ?_⟩
      rw [List.nil_append, List.nil_append] at hident
      rw [hident, relaxLoop_plain hsign.1, hplain]
    exact hsigned _ (by decide)

theorem stays_number {text : Text} (h : Json.IsNumber text) : Stays text := by
  intro prev rest hrest
  obtain ⟨sign, whole, fraction, exponent, h⟩ := h
  have hchars := h.chars
  have hplain : ∀ c ∈ sign ++ (whole ++ fraction), isPlain c = true := by
    intro c hc
    obtain hdigit | rfl | rfl := hchars c hc
    · exact isPlain_of_isDigit hdigit
    all_goals decide
  have hne : sign ++ (whole ++ fraction) ≠ [] := by simp [h.isWhole.1]
  -- what stands before the exponent is of the number
  have hlast := hchars _ (List.getLast_mem hne)
  have hprev : some ((sign ++ (whole ++ fraction)).getLast hne) ≠ some '{' ∧
      some ((sign ++ (whole ++ fraction)).getLast hne) ≠ some ',' := by
    constructor <;> intro heq <;> rw [Option.some.inj heq] at hlast <;> revert hlast <;> decide
  obtain ⟨next, hexponent⟩ := stays_exponent h.isExponent hprev hrest
  refine ⟨next, ?_⟩
  have htext : text ++ rest = sign ++ (whole ++ fraction) ++ (exponent ++ rest) := by simp [h.text_eq]
  rw [htext, relaxLoop_plains hplain, List.getLast?_eq_some_getLast hne, Option.some_or, hexponent, h.text_eq]
  simp

theorem ends_cons {c : Char} (hident : isIdentChar c = false) (hspace : isSpace c = false) (hc : c ≠ ':')
    (rest : Text) : Ends (c :: rest) where
  ident d hd := by
    obtain rfl : c = d := by simpa using hd
    exact hident
  key := by simp [skipSp, hspace, hc]

theorem ends_append {blanks rest : Text} (hblanks : Json.Blanks blanks) (hrest : Ends rest) :
    Ends (blanks ++ rest) where
  ident c hc := by
    cases blanks with
    | nil => exact hrest.ident c hc
    | cons d blanks =>
      obtain rfl : d = c := by simpa using hc
      have hd := hblanks d (.head _)
      simp only [Json.isBlank, Bool.or_eq_true, decide_eq_true_eq] at hd
      rcases hd with ((rfl | rfl) | rfl) | rfl <;> decide
  key := by
    rw [skipSp_blanks hblanks]
    exact hrest.key

/-- A value in the place of one is no key and no constructor. -/
theorem stays_word {c : Char} {more : Text} (hc : isIdentStart c = true) (hmore : ∀ d ∈ more, isIdentChar d = true)
    (hnew : c :: more ≠ "new".toList) (hctor : c :: more ∉ ctors.map Prod.fst) : Stays (c :: more) :=
  fun _ _ hrest ↦ relaxLoop_ident hc hmore hrest.ident (.inr hrest.key) hnew hctor

/-- Between a bracket and what closes it. -/
theorem stays_bracket {opening closing : Char} (hopening : isPlain opening = true)
    (hclosing : isPlain closing = true ∧ isIdentChar closing = false ∧ closing ≠ ':') {text : Text}
    (h : Stays text) : Stays (opening :: (text ++ [closing])) := by
  intro prev rest _
  have hspace : isSpace closing = false := by
    simp only [isPlain, Bool.and_eq_true, Bool.not_eq_true'] at hclosing
    exact hclosing.1.1.1.1
  obtain ⟨next, hinner⟩ := h (some opening) (closing :: rest) (ends_cons hclosing.2.1 hspace hclosing.2.2 rest)
  refine ⟨some closing, ?_⟩
  rw [List.cons_append, relaxLoop_plain hopening, List.append_assoc, List.singleton_append, hinner,
    relaxLoop_plain hclosing.1]
  simp

theorem stays_blanks {blanks : Text} (h : Json.Blanks blanks) : Stays blanks :=
  fun prev rest _ ↦ ⟨prev, relaxLoop_blanks h prev rest⟩

/-- Two parts with a comma between them. -/
theorem stays_comma {text more : Text} (h : Stays text) (hmore : Stays more) : Stays (text ++ ',' :: more) := by
  intro prev rest hrest
  obtain ⟨next, htext⟩ := h prev (',' :: (more ++ rest)) (ends_cons (by decide) (by decide) (by decide) _)
  obtain ⟨last, hlast⟩ := hmore (some ',') rest hrest
  refine ⟨last, ?_⟩
  rw [List.append_assoc, List.cons_append, htext, relaxLoop_plain (by decide), hlast]
  simp

theorem stays_of_spells {form : Json.Form} {text : Text} (h : Json.Spells form text) : Stays text := by
  induction h with
  | null => exact stays_word (by decide) (by decide) (by decide) (by decide)
  | bool b => cases b <;> exact stays_word (by decide) (by decide) (by decide) (by decide)
  | num h => exact stays_number h
  | str h =>
    intro prev rest _
    refine ⟨some '"', ?_⟩
    have hstring := relaxLoop_string h prev rest
    simpa using hstring
  | emptyArr h => exact stays_bracket (by decide) (by decide) (stays_blanks h)
  | arr h ih => exact stays_bracket (by decide) (by decide) ih
  | emptyObj h => exact stays_bracket (by decide) (by decide) (stays_blanks h)
  | obj h ih => exact stays_bracket (by decide) (by decide) ih
  | padded hbefore h hafter ih =>
    intro prev rest hrest
    obtain ⟨next, hvalue⟩ := ih prev _ (ends_append hafter hrest)
    refine ⟨next, ?_⟩
    rw [List.append_assoc, List.append_assoc, relaxLoop_blanks hbefore, hvalue, relaxLoop_blanks hafter]
    simp
  | item h ih => exact ih
  | items h hmore ih ihmore => exact stays_comma ih ihmore
  | pair hbefore hkey hafter h ih =>
    intro prev rest hrest
    obtain ⟨next, hvalue⟩ := ih (some ':') rest hrest
    refine ⟨next, ?_⟩
    simp only [List.append_assoc, List.cons_append]
    rw [relaxLoop_blanks hbefore, relaxLoop_string hkey, relaxLoop_blanks hafter,
      relaxLoop_plain (by decide), hvalue]
  | member h ih => exact ih
  | members h hmore ih ihmore => exact stays_comma ih ihmore

/-- What the grammar writes stays as it is. -/
theorem mongoJsonRelax_of_spells {form : Json.Form} {text : Text} (h : Json.Spells form text) :
    mongoJsonRelax text = text := by
  obtain ⟨next, hstays⟩ := stays_of_spells h none [] ⟨nofun, nofun⟩
  rw [List.append_nil] at hstays
  unfold mongoJsonRelax
  rw [hstays]
  exact List.append_nil _

/-- A text that is JSON stays as it is. -/
theorem mongoJsonRelax_of_valid {text : Text} (h : mongoJsonValid text = true) : mongoJsonRelax text = text := by
  obtain ⟨v, hv⟩ := spells_of_mongoJsonValid h
  exact mongoJsonRelax_of_spells hv

end Squaero.Mongo
