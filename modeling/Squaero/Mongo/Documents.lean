import Squaero.Lib.JsonText
import Squaero.Mongo.QueryParse

/-!
# Commands whose arguments are JSON documents

The bracket scan of the command parser over texts of the JSON grammar: it passes over them as long as its
stack holds the brackets they nest, and so it cuts a call into the documents it was written from.
-/

namespace Squaero.Mongo

open Squaero.Lib

/-- How many brackets the stack of `match_bracket` holds. -/
def stackSize : ℕ := 64

/-- The scan passes over `text`, inside some brackets, as long as there is room for `depth` more. -/
def Passes (depth : ℕ) (text : Text) : Prop := ∀ stack rest, stack ≠ [] → stack.length ≤ stackSize →
  matchLoop .plain stack (text ++ rest) =
    if stack.length + depth ≤ stackSize then
      (matchLoop .plain stack rest).map fun r ↦ (text ++ r.1, r.2)
    else none

theorem passes_nil : Passes 0 [] := by
  intro stack rest _ hlength
  rw [if_pos (by simpa using hlength)]
  simp

theorem Passes.append {depth depth' : ℕ} {text more : Text} (h : Passes depth text)
    (hmore : Passes depth' more) : Passes (max depth depth') (text ++ more) := by
  intro stack rest hne hlength
  rw [List.append_assoc, h stack _ hne hlength, hmore stack _ hne hlength]
  split_ifs with hfirst hsecond hboth hboth hboth
  · simp [Function.comp_def]
  · omega
  · omega
  · simp
  · omega
  · rfl

/-- A character that is neither a bracket nor a quote. -/
def isOrdinary (c : Char) : Bool := !isQuote c && !isOpener c && !isCloser c

theorem passes_char {c : Char} (h : isOrdinary c = true) : Passes 0 [c] := by
  intro stack rest _ hlength
  simp only [isOrdinary, Bool.and_eq_true, Bool.not_eq_true'] at h
  obtain ⟨⟨hquote, hopener⟩, hcloser⟩ := h
  rw [if_pos (by simpa using hlength), List.singleton_append, matchLoop]
  simp [hquote, hopener, hcloser]

theorem passes_ordinary {text : Text} (h : ∀ c ∈ text, isOrdinary c = true) : Passes 0 text := by
  induction text with
  | nil => exact passes_nil
  | cons c text ih => exact (passes_char (h c (.head _))).append (ih fun d hd ↦ h d (.tail _ hd))

/-- An opening bracket and the one that closes it. -/
structure Brackets (opening closing : Char) : Prop where
  opener : isOpener opening = true
  notQuote : isQuote opening = false
  closerOf : closerOf opening = closing
  closer : isCloser closing = true ∧ isOpener closing = false ∧ isQuote closing = false

theorem parens : Brackets '(' ')' := ⟨rfl, rfl, rfl, by decide⟩

theorem squares : Brackets '[' ']' := ⟨rfl, rfl, rfl, by decide⟩

theorem braces : Brackets '{' '}' := ⟨rfl, rfl, rfl, by decide⟩

theorem passes_bracket {opening closing : Char} (hpair : Brackets opening closing)
    {depth : ℕ} {text : Text} (h : Passes depth text) : Passes (depth + 1) (opening :: (text ++ [closing])) := by
  intro stack rest hne hlength
  rw [List.cons_append, List.append_assoc, List.singleton_append, matchLoop]
  simp only [hpair.opener, hpair.notQuote, Bool.false_eq_true, if_false, if_true, hpair.closerOf]
  by_cases hfull : 64 ≤ stack.length
  · rw [if_pos hfull, if_neg (by unfold stackSize; omega)]
  rw [if_neg hfull, h (closing :: stack) _ (List.cons_ne_nil _ _) (by simp [stackSize]; omega)]
  have hpop : matchLoop .plain (closing :: stack) (closing :: rest) =
      (matchLoop .plain stack rest).map fun r ↦ (closing :: r.1, r.2) := by
    rw [matchLoop]
    simp [hpair.closer, hne]
  simp only [hpop, List.length_cons]
  split_ifs with hroom hroom' hroom'
  · simp [Function.comp_def]
  · omega
  · omega
  · rfl

/-! ## Strings -/

theorem matchLoop_body {body : Text} {units : List ℕ} (h : Json.Body body units) (stack : List Char)
    (rest : Text) : matchLoop (.string '"') stack (body ++ '"' :: rest) =
      (matchLoop .plain stack rest).map fun r ↦ (body ++ '"' :: r.1, r.2) := by
  have hplain {c : Char} {text : Text} (hquote : c ≠ '"') (hescape : c ≠ '\\') :
      matchLoop (.string '"') stack (c :: text) =
        (matchLoop (.string '"') stack text).map fun r ↦ (c :: r.1, r.2) := by
    rw [matchLoop]
    simp [stringStep, hquote, hescape]
  have hescaped (e : Char) (text : Text) : matchLoop (.string '"') stack ('\\' :: e :: text) =
      (matchLoop (.string '"') stack text).map fun r ↦ ('\\' :: e :: r.1, r.2) := by
    rw [matchLoop]
    simp only [stringStep]
    rw [matchLoop.eq_def]
    simp [Function.comp_def]
  induction h with
  | nil =>
    rw [List.nil_append, matchLoop]
    rfl
  | plain hquote hescape _ _ ih =>
    rw [List.cons_append, hplain hquote hescape, ih]
    simp [Function.comp_def]
  | escape he _ ih =>
    rw [List.cons_append, List.cons_append, hescaped, ih]
    simp [Function.comp_def]
  | unit hunit _ ih =>
    obtain ⟨ha, hb, hc, hd⟩ := by simpa using Json.ne_of_hex4 hunit
    simp only [List.cons_append]
    rw [hescaped, hplain ha.1 ha.2, hplain hb.1 hb.2, hplain hc.1 hc.2, hplain hd.1 hd.2, ih]
    simp [Function.comp_def]

theorem passes_string {body : Text} {units : List ℕ} (h : Json.Body body units) :
    Passes 0 ('"' :: (body ++ ['"'])) := by
  intro stack rest _ hlength
  rw [if_pos (by simpa using hlength), List.cons_append, List.append_assoc, List.singleton_append, matchLoop]
  simp [isQuote, matchLoop_body h, Function.comp_def]

/-! ## Values -/

theorem isOrdinary_blank {blanks : Text} (h : Json.Blanks blanks) : ∀ c ∈ blanks, isOrdinary c = true := by
  intro c hc
  have hblank := h c hc
  simp only [Json.isBlank, Bool.or_eq_true, decide_eq_true_eq] at hblank
  rcases hblank with ((rfl | rfl) | rfl) | rfl <;> decide

theorem isOrdinary_number {text : Text} (h : Json.IsNumber text) : ∀ c ∈ text, isOrdinary c = true := by
  intro c hc
  obtain hdigit | hc := h.chars c hc
  · have hne (d : Char) (hd : d.isDigit = false) : c ≠ d := by
      rintro rfl
      exact absurd hdigit (by simp [hd])
    simp [isOrdinary, isQuote, isOpener, isCloser, hne '"' (by decide), hne '\'' (by decide),
      hne '(' (by decide), hne ')' (by decide), hne '[' (by decide), hne ']' (by decide),
      hne '{' (by decide), hne '}' (by decide)]
  · have hall : ∀ c ∈ ['-', '+', '.', 'e', 'E'], isOrdinary c = true := by decide
    exact hall c hc

theorem passes_of_spells {form : Json.Form} {text : Text} (h : Json.Spells form text) :
    Passes form.depth text := by
  induction h with
  | null => exact passes_ordinary (by decide)
  | bool b => cases b <;> exact passes_ordinary (by decide)
  | num h => exact passes_ordinary (isOrdinary_number h)
  | str h => exact passes_string h
  | emptyArr h => exact passes_bracket squares (passes_ordinary (isOrdinary_blank h))
  | arr h ih => exact passes_bracket squares ih
  | emptyObj h => exact passes_bracket braces (passes_ordinary (isOrdinary_blank h))
  | obj h ih => exact passes_bracket braces ih
  | padded hbefore h hafter ih =>
    have hbefore := passes_ordinary (isOrdinary_blank hbefore)
    have hafter := passes_ordinary (isOrdinary_blank hafter)
    simpa [Json.Form.depth] using hbefore.append (ih.append hafter)
  | item h ih => simpa [Json.Form.depth, Json.depthItems] using ih
  | items h hmore ih ihmore =>
    have hcomma := (passes_char (by decide : isOrdinary ',' = true)).append ihmore
    simpa [Json.Form.depth, Json.depthItems] using ih.append hcomma
  | pair hbefore hkey hafter h ih =>
    have hbefore := passes_ordinary (isOrdinary_blank hbefore)
    have hafter := passes_ordinary (isOrdinary_blank hafter)
    have hcolon := (passes_char (by decide : isOrdinary ':' = true)).append ih
    have hall := hbefore.append ((passes_string hkey).append (hafter.append hcolon))
    simpa [Json.Form.depth] using hall
  | member h ih => simpa [Json.Form.depth, Json.depthMembers] using ih
  | members h hmore ih ihmore =>
    have hcomma := (passes_char (by decide : isOrdinary ',' = true)).append ihmore
    simpa [Json.Form.depth, Json.depthMembers] using ih.append hcomma

/-! ## Calls -/

/-- The outermost brackets of a text take one place more than what is between them. -/
theorem matchBracket_outer {opening closing : Char} (hpair : Brackets opening closing) {depth : ℕ}
    {text : Text} (h : Passes depth text) (rest : Text) :
    matchBracket (opening :: (text ++ closing :: rest)) =
      if depth + 1 ≤ stackSize then some (text, rest) else none := by
  have hpop : matchLoop .plain [closing] (closing :: rest) = some ([], rest) := by
    rw [matchLoop]
    simp [hpair.closer]
  have hinner := h [closing] (closing :: rest) (List.cons_ne_nil _ _) (by simp [stackSize])
  rw [hpop] at hinner
  have hfirst : matchLoop .plain [] (opening :: (text ++ closing :: rest)) =
      (matchLoop .plain [closing] (text ++ closing :: rest)).map fun r ↦ (opening :: r.1, r.2) := by
    rw [matchLoop]
    simp [hpair.opener, hpair.notQuote, hpair.closerOf]
  unfold matchBracket
  rw [hfirst, hinner, List.length_singleton, Nat.add_comm 1]
  split_ifs <;> simp

/-- A document is what stands between its braces. -/
theorem document_inner {ms : List (Text × Json)} {doc : Text} (h : Json.Spells (.value (.obj ms)) doc) :
    ∃ inner, doc = '{' :: (inner ++ ['}']) ∧ Passes (Json.depthMembers ms) inner := by
  cases h with
  | emptyObj h => exact ⟨_, rfl, passes_ordinary (isOrdinary_blank h)⟩
  | obj h => exact ⟨_, rfl, passes_of_spells h⟩

theorem splitLoop_skip (tail : Text) (place : Place) (passed more : Text) :
    splitLoop tail passed.length place (passed ++ more) =
      (splitLoop tail 0 place more).map fun args ↦ args.modifyHead (passed ++ ·) := by
  induction passed with
  | nil =>
    cases hmore : splitLoop tail 0 place more with
    | none => simp [hmore]
    | some args => cases args <;> simp [hmore]
  | cons c passed ih =>
    rw [List.cons_append, List.length_cons, splitLoop]
    dsimp only
    rw [ih]
    cases hmore : splitLoop tail 0 place more with
    | none => rfl
    | some args => cases args <;> simp

theorem splitLoop_body {body : Text} {units : List ℕ} (h : Json.Body body units) (tail more : Text) :
    splitLoop tail 0 (.string '"') (body ++ '"' :: more) =
      (splitLoop tail 0 .plain more).map fun args ↦ args.modifyHead (body ++ '"' :: ·) := by
  have hplain {c : Char} {text : Text} (hquote : c ≠ '"') (hescape : c ≠ '\\') :
      splitLoop tail 0 (.string '"') (c :: text) =
        (splitLoop tail 0 (.string '"') text).map fun args ↦ args.modifyHead (c :: ·) := by
    rw [splitLoop]
    simp [stringStep, hquote, hescape]
  have hescaped (e : Char) (text : Text) : splitLoop tail 0 (.string '"') ('\\' :: e :: text) =
      (splitLoop tail 0 (.string '"') text).map fun args ↦ args.modifyHead ('\\' :: e :: ·) := by
    rw [splitLoop]
    simp only [stringStep]
    rw [splitLoop.eq_def]
    simp [Function.comp_def, List.modifyHead_modifyHead]
  induction h with
  | nil =>
    rw [List.nil_append, splitLoop]
    rfl
  | plain hquote hescape _ _ ih =>
    rw [List.cons_append, hplain hquote hescape, ih]
    simp [Function.comp_def, List.modifyHead_modifyHead]
  | escape he _ ih =>
    rw [List.cons_append, List.cons_append, hescaped, ih]
    simp [Function.comp_def, List.modifyHead_modifyHead]
  | unit hunit _ ih =>
    obtain ⟨ha, hb, hc, hd⟩ := by simpa using Json.ne_of_hex4 hunit
    simp only [List.cons_append]
    rw [hescaped, hplain ha.1 ha.2, hplain hb.1 hb.2, hplain hc.1 hc.2, hplain hd.1 hd.2, ih]
    simp [Function.comp_def, List.modifyHead_modifyHead]

/-- A string is one argument. -/
theorem splitArgs_string {body : Text} {units : List ℕ} (h : Json.Body body units) (tail : Text) :
    splitArgs ('"' :: (body ++ ['"'])) tail = some ['"' :: (body ++ ['"'])] := by
  have hskip : skipWs ('"' :: (body ++ ['"'])) = '"' :: (body ++ ['"']) := rfl
  have hbody := splitLoop_body h tail []
  rw [splitLoop] at hbody
  have hloop : splitLoop tail 0 .plain ('"' :: (body ++ ['"'])) = some ['"' :: (body ++ ['"'])] := by
    rw [splitLoop]
    simp [isOpener, isQuote, hbody]
  unfold splitArgs
  rw [hskip, if_neg (List.cons_ne_nil _ _), hloop]
  simp [maxArgs]

/-- A document is one argument, or the beginning of one. -/
theorem splitLoop_document {ms : List (Text × Json)} {doc : Text} (h : Json.Spells (.value (.obj ms)) doc)
    (hdepth : (Json.obj ms).depth ≤ stackSize) (tail more : Text) :
    splitLoop tail 0 .plain (doc ++ more) =
      (splitLoop tail 0 .plain more).map fun args ↦ args.modifyHead (doc ++ ·) := by
  obtain ⟨inner, rfl, hinner⟩ := document_inner h
  have hmatch : matchBracket ('{' :: (inner ++ '}' :: (more ++ tail))) = some (inner, more ++ tail) :=
    (matchBracket_outer braces hinner (more ++ tail)).trans (if_pos hdepth)
  have hskip := splitLoop_skip tail .plain (inner ++ ['}']) more
  rw [List.length_append, List.length_singleton] at hskip
  have hbehind : '{' :: (inner ++ ['}']) ++ more = '{' :: (inner ++ ['}'] ++ more) := by simp
  have hscanned : '{' :: (inner ++ ['}'] ++ more) ++ tail = '{' :: (inner ++ '}' :: (more ++ tail)) := by simp
  have hlength : (inner ++ ['}'] ++ more).length + tail.length - (more ++ tail).length = inner.length + 1 := by
    simp only [List.length_append, List.length_cons, List.length_nil]
    omega
  have hroom : ¬ (more ++ tail).length < tail.length := by
    rw [List.length_append]
    omega
  rw [hbehind, splitLoop]
  simp only [braces.opener, if_true, hscanned, hmatch, if_neg hroom, hlength, hskip]
  cases hmore : splitLoop tail 0 .plain more with
  | none => rfl
  | some args => cases args <;> simp

theorem splitLoop_one {ms : List (Text × Json)} {doc : Text} (h : Json.Spells (.value (.obj ms)) doc)
    (hdepth : (Json.obj ms).depth ≤ stackSize) (tail : Text) : splitLoop tail 0 .plain doc = some [doc] := by
  have hsplit := splitLoop_document h hdepth tail []
  rw [List.append_nil] at hsplit
  rw [hsplit, splitLoop]
  simp

theorem skipWs_document {ms : List (Text × Json)} {doc : Text} (h : Json.Spells (.value (.obj ms)) doc)
    (rest : Text) : skipWs (doc ++ rest) = doc ++ rest := by
  obtain ⟨inner, rfl, _⟩ := document_inner h
  rfl

theorem trim_document {ms : List (Text × Json)} {doc : Text} (h : Json.Spells (.value (.obj ms)) doc)
    {blanks : Text} (hblanks : ∀ c ∈ blanks, isSpace c = true) : trim (blanks ++ doc) = doc := by
  have hskip := skipWs_document h []
  rw [List.append_nil] at hskip
  obtain ⟨inner, rfl, _⟩ := document_inner h
  have hleft : skipWs (blanks ++ '{' :: (inner ++ ['}'])) = '{' :: (inner ++ ['}']) := by
    unfold skipWs
    rw [List.dropWhile_append_of_pos hblanks]
    exact hskip
  unfold trim skipWsBack
  rw [hleft, ← List.cons_append, List.rdropWhile_concat_neg _ _ _ (by decide)]

/-- One document between the parentheses. -/
theorem splitArgs_one {ms : List (Text × Json)} {doc : Text} (h : Json.Spells (.value (.obj ms)) doc)
    (hdepth : (Json.obj ms).depth ≤ stackSize) (tail : Text) : splitArgs doc tail = some [doc] := by
  have hskip := skipWs_document h []
  rw [List.append_nil] at hskip
  have hne : doc ≠ [] := List.ne_nil_of_length_pos h.length_pos
  unfold splitArgs
  rw [hskip, if_neg hne, splitLoop_one h hdepth]
  simp [maxArgs]

/-- Two documents with a comma between them. -/
theorem splitArgs_two {ms ms' : List (Text × Json)} {doc doc' : Text}
    (h : Json.Spells (.value (.obj ms)) doc) (hdepth : (Json.obj ms).depth ≤ stackSize)
    (h' : Json.Spells (.value (.obj ms')) doc') (hdepth' : (Json.obj ms').depth ≤ stackSize) (tail : Text) :
    splitArgs (doc ++ ", ".toList ++ doc') tail = some [doc, ' ' :: doc'] := by
  have hskip := skipWs_document h (", ".toList ++ doc')
  have hne : doc ++ (", ".toList ++ doc') ≠ [] := by simp
  have hcomma : splitLoop tail 0 .plain (", ".toList ++ doc') = some [[], ' ' :: doc'] := by
    have hblank : splitLoop tail 0 .plain (' ' :: doc') = some [' ' :: doc'] := by
      rw [splitLoop]
      simp [isOpener, isQuote, splitLoop_one h' hdepth' tail]
    change splitLoop tail 0 .plain (',' :: ' ' :: doc') = _
    rw [splitLoop]
    simp [isOpener, isQuote, hblank]
  unfold splitArgs
  rw [List.append_assoc, hskip, if_neg hne, splitLoop_document h hdepth, hcomma]
  simp [maxArgs]

end Squaero.Mongo
