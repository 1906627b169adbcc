import Mathlib
import Squaero.Front.Scrub
import Squaero.Gate.Agreement

/-!
# What counts as a read

`readsOnly` judges the scrubbed text by its first word and a few others. What it takes for a read is run
outside of the transaction in manual mode and run again on a page turn, so it should be a read for the safe
mode as well, and hold no word that writes where the engine reads code.
-/

namespace Squaero.Front

open Squaero.Lib Squaero.Gate
open Gate.StmtClass (isQuote)
open Gate.SafeMode (isRegexWord)

/-! ## What the engine reads -/

/-- A character of the words of the engine. -/
def isNamePart (engine : Engine) (c : Char) : Bool :=
  Engine.isLetter c || c.isDigit || c = '$' || (engine = .mssql && (c = '@' || c = '#'))

/-- The words outside of comments and quotes. -/
def codeWords (engine : Engine) (sql : Text) : List Text :=
  (runs (isNamePart engine) (engine.reading sql)).map (·.map Char.toUpper)

def writeWords : List Text :=
  ["INSERT".toList, "UPDATE".toList, "DELETE".toList, "MERGE".toList, "INTO".toList]

def isBlank (part : Text) : Bool := part.all isSpace

/-- Where the engine stands behind the text. -/
def endPlace (engine : Engine) (sql : Text) : Engine.Place :=
  ModeMachine.final engine.readStep (.code false false) sql

/-- Comments and quotes are closed, and all but one of the parts between semicolons are blank. -/
def OneStatement (engine : Engine) (sql : Text) : Prop :=
  endPlace engine sql ∈ [.code false false, .code false true, .line false] ∧
    (((engine.reading sql).splitOn ';').filter fun part ↦ !isBlank part).length = 1

/-- What is left of the statement in front of which nothing stands. -/
def statementShown (engine : Engine) (sql : Text) : Text :=
  Gate.SafeMode.statementBody (((engine.reading sql).splitOn ';').headD [])

/-- The safe mode calls the text a read, and the engine reads no word in it that writes. -/
def RunsAsRead (engine : Engine) (sql : Text) : Prop :=
  Gate.SafeMode.classifySql sql (some engine.driver) = .read ∧
    ∀ word ∈ writeWords, word ∉ codeWords engine sql

instance (engine : Engine) (sql : Text) : Decidable (OneStatement engine sql) :=
  inferInstanceAs (Decidable (_ ∧ _))

instance (engine : Engine) (sql : Text) : Decidable (RunsAsRead engine sql) :=
  inferInstanceAs (Decidable (_ ∧ _))

/-! ## The normalized text -/

/-- A character of words, besides what JavaScript takes for a blank. -/
def isCodePart (engine : Engine) (c : Char) : Bool := isNamePart engine c && !isJsSpace c

theorem jsLowerChar_of_not_isWide {c : Char} (h : isWide c = false) : jsLowerChar c = [c.toLower] := by
  unfold jsLowerChar
  split
  · exact absurd h (by decide)
  · exact absurd h (by decide)
  · rfl

theorem jsLower_append (a b : Text) : jsLower (a ++ b) = jsLower a ++ jsLower b := List.flatMap_append

/-- Blanks in a row become one. -/
theorem collapse_words {isPart : Char → Bool} (hspace : ∀ c, isJsSpace c = true → isPart c = false)
    (text : Text) :
    (replaceAll spaces [' '] text).takeWhile isPart = text.takeWhile isPart ∧
      runs isPart ((replaceAll spaces [' '] text).dropWhile isPart) = runs isPart (text.dropWhile isPart) ∧
        ((replaceAll spaces [' '] text).dropWhile isJsSpace).takeWhile isPart =
          (text.dropWhile isJsSpace).takeWhile isPart := by
  have hblank : isPart ' ' = false := hspace ' ' (by decide)
  induction hlength : text.length using Nat.strong_induction_on generalizing text with
  | _ n ih =>
    cases text with
    | nil => exact ⟨rfl, rfl, rfl⟩
    | cons c text =>
      cases hc : isJsSpace c with
      | true =>
        have hsplit := List.takeWhile_append_dropWhile (p := isJsSpace) (l := text)
        have hmatch : spaces (c :: text) = some (text.dropWhile isJsSpace) := by simp [spaces, hc]
        have hput : replaceAll spaces [' '] (c :: text) =
            ' ' :: replaceAll spaces [' '] (text.dropWhile isJsSpace) := by
          have hall : replaceAll spaces [' '] ((c :: text.takeWhile isJsSpace) ++ text.dropWhile isJsSpace) =
              [' '] ++ replaceAll spaces [' '] (text.dropWhile isJsSpace) :=
            replaceAll_match (List.cons_ne_nil _ _) (by rw [List.cons_append, hsplit]; exact hmatch)
          rwa [List.cons_append, hsplit] at hall
        have hshort : (text.dropWhile isJsSpace).length < n := by
          have hlen := (List.dropWhile_sublist isJsSpace (l := text)).length_le
          simp only [List.length_cons] at hlength
          omega
        obtain ⟨htake, hdrop, hlead⟩ := ih _ hshort _ rfl
        have hruns : runs isPart (replaceAll spaces [' '] (text.dropWhile isJsSpace)) =
            runs isPart (text.dropWhile isJsSpace) := by
          rw [runs_eq, htake, hdrop, ← runs_eq]
        have hseparators : runs isPart text = runs isPart (text.dropWhile isJsSpace) := by
          conv_lhs => rw [← hsplit]
          exact runs_separators (fun d hd ↦ hspace d (List.mem_takeWhile_imp hd)) _
        rw [hput]
        refine ⟨by simp [hblank, hspace c hc], ?_, ?_⟩
        · rw [List.dropWhile_cons_of_neg (by simp [hblank]), List.dropWhile_cons_of_neg (by simp [hspace c hc]),
            runs_cons _ hblank, runs_cons _ (hspace c hc), hruns, hseparators]
        · rw [List.dropWhile_cons_of_pos (by decide), List.dropWhile_cons_of_pos hc, hlead,
            List.dropWhile_idempotent]
      | false =>
        have hnone : spaces (c :: text) = none := by simp [spaces, hc]
        obtain ⟨htake, hdrop, -⟩ := ih text.length (by simp at hlength; omega) text rfl
        have hfirst : (c :: replaceAll spaces [' '] text).takeWhile isPart = (c :: text).takeWhile isPart := by
          rw [List.takeWhile_cons, List.takeWhile_cons, htake]
        rw [replaceAll_cons hnone]
        refine ⟨hfirst, ?_, ?_⟩
        · cases hpart : isPart c with
          | true => simpa [hpart] using hdrop
          | false =>
            rw [List.dropWhile_cons_of_neg (by simp [hpart]), List.dropWhile_cons_of_neg (by simp [hpart]),
              runs_cons _ hpart, runs_cons _ hpart, runs_eq, htake, hdrop, ← runs_eq]
        · rw [List.dropWhile_cons_of_neg (by simp [hc]), List.dropWhile_cons_of_neg (by simp [hc]), hfirst]

theorem not_regexWord_of_isJsSpace {c : Char} (h : isJsSpace c = true) : isRegexWord c = false := by
  have hword := isWordChar_of_isJsSpace h
  simp only [isWordChar, Bool.or_eq_false_iff] at hword
  cases hdigit : c.isDigit with
  | false => simp [isRegexWord, Char.isAlphanum, hword.1, hdigit, hword.2]
  | true =>
    have hwide := isWide_of_isJsSpace h (isSpace_of_isDigit hdigit)
    rw [isWide_of_isDigit hdigit] at hwide
    exact absurd hwide (by decide)

/-- Lower-casing does not make a word of what is none. -/
theorem not_regexWord_jsLowerChar {engine : Engine} {c : Char} (h : isCodePart engine c = false) :
    ∀ d ∈ jsLowerChar c, isRegexWord d = false := by
  have hword : isRegexWord c = false ∧ jsLowerChar c = [c.toLower] := by
    cases hspace : isJsSpace c with
    | true =>
      refine ⟨not_regexWord_of_isJsSpace hspace, ?_⟩
      unfold jsLowerChar
      split
      · exact absurd hspace (by decide)
      · exact absurd hspace (by decide)
      · rfl
    | false =>
      simp only [isCodePart, hspace, isNamePart, Engine.isLetter, isWordChar, Bool.not_false, Bool.and_true,
        Bool.or_eq_false_iff] at h
      obtain ⟨⟨⟨⟨⟨halpha, hunderscore⟩, hwide⟩, hdigit⟩, -⟩, -⟩ := h
      exact ⟨by simp [isRegexWord, Char.isAlphanum, halpha, hdigit, hunderscore],
        jsLowerChar_of_not_isWide hwide⟩
  have hupper : ¬ c.isUpper := by
    intro hupper
    have hfalse := hword.1
    simp [isRegexWord, Char.isAlphanum, isAlpha_eq, hupper] at hfalse
  rw [hword.2, Char.toLower_eq_of_not_isUpper hupper]
  simpa using hword.1

theorem isAlpha_of_toUpper {c : Char} (h : c.toUpper.isUpper = true) : c.isAlpha = true := by
  rwa [Char.isUpper_toUpper_eq_isAlpha] at h

/-- A word that reads as `name` in capitals is `name` in small letters. -/
theorem jsLower_of_toUpper {word name : Text} (hname : ∀ c ∈ name, c.isUpper = true)
    (h : word.map Char.toUpper = name) : jsLower word = name.map Char.toLower := by
  subst h
  induction word with
  | nil => rfl
  | cons c word ih =>
    rw [List.map_cons, List.forall_mem_cons] at hname
    have hfirst := jsLowerChar_of_not_isWide (isWide_of_isAlpha (isAlpha_of_toUpper hname.1))
    have hcons : jsLower (c :: word) = jsLowerChar c ++ jsLower word := rfl
    rw [hcons, hfirst, ih hname.2, List.map_cons, List.map_cons, Char.toLower_toUpper_eq_toLower]
    rfl

/-- The text before it is lower-cased. -/
def trimmed (sql : Text) : Text := (scrub sql).rdropWhile fun c ↦ c = ';' || isJsSpace c

theorem normalized_eq (sql : Text) : normalized sql = jsLower (trimmed sql) := rfl

section

variable {isPart : Char → Bool}

theorem takeWhile_rdropWhile {stop : Char → Bool} (hstop : ∀ c, stop c = true → isPart c = false)
    (text : Text) : (text.rdropWhile stop).takeWhile isPart = text.takeWhile isPart := by
  induction text using List.reverseRecOn with
  | nil => rfl
  | append_singleton text c ih =>
    cases hc : stop c with
    | true =>
      rw [List.rdropWhile_concat_pos _ _ _ hc, ih, List.takeWhile_append]
      split_ifs with hlength
      · rw [List.takeWhile_cons_of_neg (by simp [hstop c hc]), List.append_nil]
        exact (List.takeWhile_prefix isPart).eq_of_length hlength
      · rfl
    | false => rw [List.rdropWhile_concat_neg _ _ _ (by simp [hc])]

theorem runs_rdropWhile {stop : Char → Bool} (hstop : ∀ c, stop c = true → isPart c = false)
    (text : Text) : runs isPart (text.rdropWhile stop) = runs isPart text := by
  conv_rhs => rw [← List.rdropWhile_append_rtakeWhile (p := stop) (l := text)]
  exact (runs_append_separators (fun c hc ↦ hstop c (List.mem_rtakeWhile_imp hc)) _).symm

theorem runs_dropWhile {stop : Char → Bool} (hstop : ∀ c, stop c = true → isPart c = false)
    (text : Text) : runs isPart (text.dropWhile stop) = runs isPart text := by
  conv_rhs => rw [← List.takeWhile_append_dropWhile (p := stop) (l := text)]
  exact (runs_separators (fun c hc ↦ hstop c (List.mem_takeWhile_imp hc)) _).symm

variable (hspace : ∀ c, isJsSpace c = true → isPart c = false) (hsemicolon : isPart ';' = false)

include hspace hsemicolon

theorem not_part_of_trimmed (c : Char) (h : (c = ';' || isJsSpace c) = true) : isPart c = false := by
  rcases Bool.or_eq_true _ _ ▸ h with hc | hc
  · rw [of_decide_eq_true hc, hsemicolon]
  · exact hspace c hc

theorem runs_trimmed (sql : Text) : runs isPart (trimmed sql) = runs isPart (scrubCode sql) := by
  obtain ⟨htake, hdrop, -⟩ := collapse_words hspace (scrubCode sql)
  unfold trimmed scrub jsTrim jsTrimEnd jsTrimStart
  rw [runs_rdropWhile (not_part_of_trimmed hspace hsemicolon), runs_rdropWhile hspace, runs_dropWhile hspace,
    runs_eq, htake, hdrop, ← runs_eq]

theorem takeWhile_trimmed (sql : Text) :
    (trimmed sql).takeWhile isPart = ((scrubCode sql).dropWhile isJsSpace).takeWhile isPart := by
  obtain ⟨-, -, hlead⟩ := collapse_words hspace (scrubCode sql)
  unfold trimmed scrub jsTrim jsTrimEnd jsTrimStart
  rw [takeWhile_rdropWhile (not_part_of_trimmed hspace hsemicolon), takeWhile_rdropWhile hspace, hlead]

end

theorem isCodePart_of_isJsSpace (engine : Engine) (c : Char) (h : isJsSpace c = true) :
    isCodePart engine c = false := by
  simp [isCodePart, h]

theorem any_getLast?_jsLower {engine : Engine} {text : Text}
    (h : text.getLast?.any (isCodePart engine) = false) :
    (jsLower text).getLast?.any isRegexWord = false := by
  rcases List.eq_nil_or_concat text with rfl | ⟨text, c, rfl⟩
  · rfl
  · have hc : isCodePart engine c = false := by simpa using h
    have hword := not_regexWord_jsLowerChar hc
    rw [List.concat_eq_append, jsLower_append]
    have hlast : jsLower [c] = jsLowerChar c := List.flatMap_singleton _ _
    cases hmany : (jsLower text ++ jsLower [c]).getLast? with
    | none => rfl
    | some d =>
      have hne : jsLower [c] ≠ [] := by
        rw [hlast]
        unfold jsLowerChar
        split <;> simp
      rw [List.getLast?_append_of_ne_nil _ hne, hlast] at hmany
      exact hword d (List.mem_of_getLast? hmany)

theorem any_head?_jsLower {engine : Engine} {text : Text} (h : text.head?.any (isCodePart engine) = false) :
    (jsLower text).head?.any isRegexWord = false := by
  cases text with
  | nil => rfl
  | cons c text =>
    have hc : isCodePart engine c = false := by simpa using h
    have hword := not_regexWord_jsLowerChar hc
    have hcons : jsLower (c :: text) = jsLowerChar c ++ jsLower text := rfl
    cases hhead : (jsLower (c :: text)).head? with
    | none => rfl
    | some d =>
      have hne : jsLowerChar c ≠ [] := by
        unfold jsLowerChar
        split <;> simp
      rw [hcons, List.head?_append_of_ne_nil _ hne] at hhead
      exact hword d (List.mem_of_mem_head? hhead)

/-- A word of the scrubbed code is one of the text that decides. -/
theorem hasPhrase_of_mem_runs {engine : Engine} {sql word name : Text} (hname : ∀ c ∈ name, c.isUpper = true)
    (hword : word.map Char.toUpper = name) (h : word ∈ runs (isCodePart engine) (scrubCode sql)) :
    hasPhrase (name.map Char.toLower) (normalized sql) = true := by
  have hsemicolon : isCodePart engine ';' = false := by cases engine <;> decide
  rw [← runs_trimmed (isCodePart_of_isJsSpace engine) hsemicolon] at h
  obtain ⟨hne, -, before, after, hsplit, hbefore, hafter⟩ := exists_of_mem_runs h
  rw [normalized_eq, hsplit, jsLower_append, jsLower_append, jsLower_of_toUpper hname hword]
  refine occursAfter_of_between ?_ none _ _ ?_ (any_head?_jsLower hafter)
  · rw [← hword]
    simpa using hne
  · rw [Option.or_none]
    exact any_getLast?_jsLower hbefore

/-- Only the word itself is lower-cased to a word of small letters. -/
theorem eq_append_of_jsLower {verb more text : Text} (hverb : ∀ c ∈ verb, c.isLower = true ∧ c ≠ 'k')
    (hlast : verb.getLast? ≠ some 'i') (h : jsLower text = verb ++ more) :
    ∃ word rest, text = word ++ rest ∧ word.map Char.toLower = verb ∧ jsLower rest = more := by
  induction verb generalizing text with
  | nil => exact ⟨[], text, rfl, rfl, h⟩
  | cons v verb ih =>
    rw [List.forall_mem_cons] at hverb
    have hmore : verb.getLast? ≠ some 'i' := by
      intro hin
      rw [List.getLast?_cons, hin] at hlast
      exact hlast rfl
    cases text with
    | nil => exact absurd h nofun
    | cons c text =>
      have hcons : jsLower (c :: text) = jsLowerChar c ++ jsLower text := rfl
      rw [hcons] at h
      have hsingle : jsLowerChar c = [c.toLower] := by
        unfold jsLowerChar at h ⊢
        split at h
        · -- The dot above would be the next letter.
          obtain ⟨rfl, hrest⟩ := List.cons.inj h
          cases verb with
          | nil => exact absurd rfl hlast
          | cons d verb =>
            obtain rfl := (List.cons.inj hrest).1
            exact absurd (hverb.2 _ (.head _)).1 (by decide)
        · exact absurd (List.cons.inj h).1.symm hverb.1.2
        · rfl
      rw [hsingle] at h
      obtain ⟨rfl, hrest⟩ := List.cons.inj h
      obtain ⟨word, rest, rfl, rfl, hbehind⟩ := ih hverb.2 hmore hrest
      exact ⟨c :: word, rest, rfl, rfl, hbehind⟩

/-- The first word of the code, as the text that decides begins with it. -/
theorem lead_of_startsWith {sql verb : Text} (hverb : ∀ c ∈ verb, c.isLower = true ∧ c ≠ 'k')
    (hlast : verb.getLast? ≠ some 'i') (h : startsWith verb (normalized sql) = true) :
    (((scrubCode sql).dropWhile isJsSpace).takeWhile isWordChar).map Char.toUpper = verb.map Char.toUpper := by
  unfold startsWith at h
  rw [Bool.and_eq_true, List.isPrefixOf_iff_prefix] at h
  obtain ⟨⟨more, hmore⟩, hend⟩ := h
  rw [← hmore, List.drop_left, Bool.not_eq_true'] at hend
  have hlower : jsLower (trimmed sql) = verb ++ more := hmore.symm
  obtain ⟨word, rest, hsplit, hword, hrest⟩ := eq_append_of_jsLower hverb hlast hlower
  have hletters : ∀ c ∈ word, isWordChar c = true := by
    intro c hc
    have hlower := (hverb _ (hword ▸ List.mem_map_of_mem hc)).1
    rw [Char.isLower_toLower_eq_isAlpha] at hlower
    simp [isWordChar, hlower]
  have hstop : rest.takeWhile isWordChar = [] := by
    cases rest with
    | nil => rfl
    | cons d rest =>
      refine List.takeWhile_cons_of_neg fun hd ↦ ?_
      have hwide : isWide d = false := by
        by_contra hwide
        simp [isWordChar_of_isWide (by simpa using hwide)] at hd
      have hcons : jsLower (d :: rest) = [d.toLower] ++ jsLower rest :=
        congrArg (· ++ jsLower rest) (jsLowerChar_of_not_isWide hwide)
      rw [← hrest, hcons] at hend
      have hfalse : isRegexWord d.toLower = false := hend
      simp only [isWordChar, Bool.or_eq_true, decide_eq_true_eq] at hd
      rcases hd with halpha | rfl
      · rw [← Char.isAlpha_toLower_eq_isAlpha] at halpha
        simp [isRegexWord, Char.isAlphanum, halpha] at hfalse
      · exact absurd hfalse (by decide)
  rw [← takeWhile_trimmed (fun _ ↦ isWordChar_of_isJsSpace) (by decide), hsplit,
    List.takeWhile_append_of_pos hletters, hstop, List.append_nil, ← hword, List.map_map]
  exact List.map_congr_left fun c _ ↦ (Char.toUpper_toLower_eq_toUpper c).symm

/-! ## The statement -/

/-- The first part of a text begins as the text does. -/
theorem splitOn_append {d : Char} {before : Text} (h : d ∉ before) (text : Text) :
    (before ++ text).splitOn d = (text.splitOn d).modifyHead (before ++ ·) := by
  induction before with
  | nil => cases hsplit : text.splitOn d <;> simp [hsplit]
  | cons c before ih =>
    rw [List.mem_cons, not_or] at h
    have hc : ¬ c = d := fun heq ↦ h.1 heq.symm
    rw [List.cons_append, List.splitOn_cons_eq_if_modifyHead, if_neg (by simpa using hc), ih h.2,
      List.modifyHead_modifyHead]
    rfl

theorem head?_of_mem_splitOn {d : Char} {text first : Text} {others : List Text}
    (h : text.splitOn d = first :: others) : first.head? = none ∨ first.head? = text.head? := by
  cases text with
  | nil =>
    rw [List.splitOn_nil] at h
    obtain rfl := (List.cons.inj h).1
    exact .inl rfl
  | cons c text =>
    obtain ⟨part, parts, hparts⟩ := List.exists_cons_of_ne_nil (List.splitOn_ne_nil d text)
    rw [List.splitOn_cons_eq_if_modifyHead, hparts] at h
    split_ifs at h
    · obtain rfl := (List.cons.inj h).1
      exact .inl rfl
    · rw [List.modifyHead_cons] at h
      obtain rfl := (List.cons.inj h).1
      exact .inr rfl

/-- A text that begins with a word: so does its first part, and the gate finds the word. -/
theorem first_part {read word : Text} (hword : (read.dropWhile isJsSpace).takeWhile isWordChar = word)
    (hne : word ≠ []) : ∃ first others, read.splitOn ';' = first :: others ∧ isBlank first = false ∧
      Gate.SafeMode.statementBody first ≠ [] ∧
        leadWord (Gate.SafeMode.statementBody first) = word.map Char.toUpper := by
  obtain ⟨c, more, rfl⟩ := List.exists_cons_of_ne_nil hne
  have hletters : ∀ d ∈ c :: more, isWordChar d = true :=
    fun d hd ↦ List.mem_takeWhile_imp (hword ▸ hd : d ∈ (read.dropWhile isJsSpace).takeWhile isWordChar)
  have hletter := hletters c (.head _)
  generalize hpost : (read.dropWhile isJsSpace).dropWhile isWordChar = post
  have hread : read = (read.takeWhile isJsSpace ++ c :: more) ++ post := by
    rw [List.append_assoc, ← hword, ← hpost, List.takeWhile_append_dropWhile, List.takeWhile_append_dropWhile]
  have hstop : post.head?.any isWordChar = false := hpost ▸ any_head_dropWhile _ _
  have hsemicolon : ';' ∉ read.takeWhile isJsSpace ++ c :: more := by
    rw [List.mem_append, not_or]
    constructor
    · exact fun hmem ↦ absurd (List.mem_takeWhile_imp hmem) (by decide)
    · exact fun hmem ↦ absurd (hletters _ hmem) (by decide)
  obtain ⟨first, others, hsplit⟩ := List.exists_cons_of_ne_nil (List.splitOn_ne_nil ';' post)
  have hparts : read.splitOn ';' = ((read.takeWhile isJsSpace ++ c :: more) ++ first) :: others := by
    conv_lhs => rw [hread]
    rw [splitOn_append hsemicolon, hsplit, List.modifyHead_cons]
  have hbody : Gate.SafeMode.statementBody ((read.takeWhile isJsSpace ++ c :: more) ++ first) =
      c :: (more ++ first) := by
    have hlead : ¬ (isJsSpace c || decide (c = '(')) = true := by
      rw [Bool.or_eq_true, not_or]
      constructor
      · intro hspace
        rw [isWordChar_of_isJsSpace hspace] at hletter
        exact absurd hletter (by decide)
      · rw [decide_eq_true_eq]
        rintro rfl
        exact absurd hletter (by decide)
    unfold Gate.SafeMode.statementBody
    rw [List.append_assoc, List.dropWhile_append_of_pos fun d hd ↦ by simp [List.mem_takeWhile_imp hd]]
    exact List.dropWhile_cons_of_neg hlead
  have hfirst : first.takeWhile isWordChar = [] := by
    cases first with
    | nil => rfl
    | cons d first =>
      refine List.takeWhile_cons_of_neg ?_
      rcases head?_of_mem_splitOn hsplit with hnone | hsame
      · exact absurd hnone nofun
      · rw [← hsame] at hstop
        simpa using hstop
  refine ⟨_, others, hparts, ?_, by rw [hbody]; exact List.cons_ne_nil _ _, ?_⟩
  · have hspace : isSpace c = false := by
      by_contra hspace
      rw [isWordChar_of_isSpace (by simpa using hspace)] at hletter
      exact absurd hletter (by decide)
    simp [isBlank, hspace]
  · rw [hbody, leadWord, ← List.cons_append, List.takeWhile_append_of_pos hletters, hfirst, List.append_nil]

theorem statementBody_of_isBlank {part : Text} (h : isBlank part = true) :
    Gate.SafeMode.statementBody part = [] := by
  unfold Gate.SafeMode.statementBody
  rw [List.dropWhile_eq_nil_iff]
  intro c hc
  have hspace : isSpace c = true := List.all_eq_true.mp h c hc
  simp [isJsSpace, hspace]

/-! ## Reads -/

/-- What the words of the statement should not be, besides what `readsOnly` refuses. -/
structure ReadsByItsWords (engine : Engine) (sql : Text) : Prop where
  plain : leadWord (statementShown engine sql) ≠ "WITH".toList →
    ∀ word ∈ ["INSERT".toList, "UPDATE".toList, "DELETE".toList, "MERGE".toList], word ∉ codeWords engine sql
  scanned : leadWord (statementShown engine sql) ∈ ["WITH".toList, "EXPLAIN".toList] →
    ∀ word ∈ Gate.SafeMode.words (statementShown engine sql), word ∉ StmtClass.writeTokens
  selects : leadWord (statementShown engine sql) = "SELECT".toList →
    "INTO".toList ∉ Gate.SafeMode.words (statementShown engine sql)

/-- What the gate and the engine make of a text that they may read in different ways. -/
structure ReadsAnyway (engine : Engine) (sql : Text) : Prop where
  reads : ∀ part ∈ statements sql, FoldedReadOnly part
  shown : ∃ part ∈ statements sql, Gate.SafeMode.statementBody part ≠ []
  hidden : ∀ word ∈ writeWords, word ∉ codeWords engine sql

theorem classifySql_eq_read_iff (engine : Engine) (sql : Text) :
    Gate.SafeMode.classifySql sql (some engine.driver) = .read ↔
      (∀ part ∈ statements sql, FoldedReadOnly part) ∧
        ∃ part ∈ statements sql, Gate.SafeMode.statementBody part ≠ [] := by
  have hengine : jsLower ((some engine.driver).getD []) ≠ "mongodb".toList := by cases engine <;> decide
  obtain ⟨hwrite, hempty⟩ := classifySql_iff_statements sql (some engine.driver) hengine
  have hread (c : StmtClass) : c = .read ↔ ¬ c = .write ∧ ¬ c = .empty := by cases c <;> decide
  rw [hread, hwrite, hempty]
  push Not
  rfl

theorem runsAsRead_iff_readsAnyway (engine : Engine) (sql : Text) :
    RunsAsRead engine sql ↔ ReadsAnyway engine sql := by
  unfold RunsAsRead
  rw [classifySql_eq_read_iff]
  exact ⟨fun h ↦ ⟨h.1.1, h.1.2, h.2⟩, fun h ↦ ⟨⟨h.reads, h.shown⟩, h.hidden⟩⟩

/-- What `readsOnly` has looked at: the first word, the words that write with it, and, where the first word
is `WITH`, the others that write. -/
theorem readsOnly_cases {sql : Text} (h : readsOnly sql = true) :
    ∃ verb ∈ "with".toList :: readVerbs, startsWith verb (normalized sql) = true ∧
      hasPhrase "into".toList (normalized sql) = false ∧
        (verb = "with".toList → ∀ word ∈ dmlWords, hasPhrase word (normalized sql) = false) := by
  have hinto (hwrites : (!writingPhrases.any (hasPhrase · (normalized sql))) = true) :
      hasPhrase "into".toList (normalized sql) = false := by
    rw [Bool.not_eq_true', List.any_eq_false] at hwrites
    simpa using hwrites "into".toList (by decide)
  unfold readsOnly at h
  simp only at h
  split_ifs at h with hwith
  · rw [Bool.and_eq_true] at h
    refine ⟨"with".toList, .head _, hwith, hinto h.2, fun _ word hword ↦ ?_⟩
    have hdml := h.1
    rw [Bool.not_eq_true', List.any_eq_false] at hdml
    simpa using hdml word hword
  · rw [Bool.and_eq_true, List.any_eq_true] at h
    obtain ⟨⟨verb, hverb, hstarts⟩, hwrites⟩ := h
    refine ⟨verb, .tail _ hverb, hstarts, hinto hwrites, ?_⟩
    rintro rfl
    exact absurd hverb (by decide)

/-- The verbs, as the gate spells them. -/
theorem readVerbs_upper : ∀ verb ∈ "with".toList :: readVerbs,
    (∀ c ∈ verb, c.isLower = true ∧ c ≠ 'k') ∧ verb.getLast? ≠ some 'i' ∧ verb ≠ [] ∧
      verb.map Char.toUpper ∈ readStarters ∧
        (verb.map Char.toUpper = "WITH".toList → verb = "with".toList) := by
  decide

/-- A word that the engine reads as code of a clear text stands in the text that decides. -/
theorem hasPhrase_of_mem_codeWords {engine : Engine} {sql name : Text} (h : ClearText engine .code sql)
    (hname : ∀ c ∈ name, c.isUpper = true) (hword : name ∈ codeWords engine sql) :
    hasPhrase (name.map Char.toLower) (normalized sql) = true := by
  obtain ⟨word, hruns, hupper⟩ := List.mem_map.mp hword
  obtain ⟨scrubbed, hscrubs⟩ := h.scrubs
  have hletters : ∀ c ∈ word, isCodePart engine c = true := by
    intro c hc
    have halpha := isAlpha_of_toUpper (hname _ (hupper ▸ List.mem_map_of_mem hc))
    have hspace : isJsSpace c = false := by
      by_contra hspace
      have := isWordChar_of_isJsSpace (by simpa using hspace)
      simp [isWordChar, halpha] at this
    simp [isCodePart, isNamePart, Engine.isLetter, isWordChar, halpha, hspace]
  have hquotes (c : Char) (hc : isQuote c = true) : isCodePart engine c = false := by
    simp only [isQuote, Bool.or_eq_true, decide_eq_true_eq] at hc
    rcases hc with (rfl | rfl) | rfl <;> cases engine <;> decide
  have hcode : word ∈ runs (isCodePart engine) (engine.reading sql) :=
    mem_runs_of_imp (fun c hc ↦ (Bool.and_eq_true _ _ ▸ hc).1) hruns hletters
  rw [h.reading false] at hcode
  have hscrubbed := hscrubs.runs_subset (isCodePart_of_isJsSpace engine ' ' (by decide)) hquotes word hcode
  rw [← scrubCode_of_scrubs hscrubs] at hscrubbed
  exact hasPhrase_of_mem_runs hname hupper hscrubbed

/-- The statement of a clear text, as it is shown to the engine and to both readings of the gate. -/
theorem shown_of_clear {engine : Engine} {sql verb : Text} (h : ClearText engine .code sql)
    (hone : OneStatement engine sql) (hverb : verb ∈ "with".toList :: readVerbs)
    (hstarts : startsWith verb (normalized sql) = true) :
    leadWord (statementShown engine sql) = verb.map Char.toUpper ∧ statementShown engine sql ≠ [] ∧
      (∀ part ∈ statements sql, Gate.SafeMode.statementBody part = statementShown engine sql ∨
        Gate.SafeMode.statementBody part = []) ∧
        ∃ part ∈ statements sql, Gate.SafeMode.statementBody part = statementShown engine sql := by
  obtain ⟨hlower, hlast, hne, -, -⟩ := readVerbs_upper verb hverb
  obtain ⟨scrubbed, hscrubs⟩ := h.scrubs
  have hquotes (c : Char) (hc : isQuote c = true) : isWordChar c = false := by
    simp only [isQuote, Bool.or_eq_true, decide_eq_true_eq] at hc
    rcases hc with (rfl | rfl) | rfl <;> decide
  have hword : (((engine.reading sql).dropWhile isJsSpace).takeWhile isWordChar).map Char.toUpper =
      verb.map Char.toUpper := by
    rw [h.reading false, ← lead_of_startsWith hlower hlast hstarts, scrubCode_of_scrubs hscrubs]
    exact congrArg (List.map Char.toUpper) (hscrubs.lead (fun _ ↦ isWordChar_of_isJsSpace) hquotes)
  have hsome : ((engine.reading sql).dropWhile isJsSpace).takeWhile isWordChar ≠ [] := by
    intro hnil
    rw [hnil, List.map_nil, eq_comm, List.map_eq_nil_iff] at hword
    exact hne hword
  obtain ⟨first, others, hsplit, hfull, hbody, hlead⟩ := first_part rfl hsome
  have hshown : statementShown engine sql = Gate.SafeMode.statementBody first := by
    rw [statementShown, hsplit]
    rfl
  have hblank : ∀ part ∈ others, isBlank part = true := by
    have hcount := hone.2
    rw [hsplit, List.filter_cons_of_pos (by simp [hfull]), List.length_cons, Nat.add_eq_right,
      List.length_eq_zero_iff, List.filter_eq_nil_iff] at hcount
    exact fun part hpart ↦ by simpa using hcount part hpart
  have hparts (part : Text) : part ∈ statements sql ↔ part ∈ first :: others := by
    simp only [statements, ← h.reading, hsplit, List.mem_flatMap, List.mem_cons, List.not_mem_nil, or_false,
      exists_eq_or_imp, exists_eq_left, or_self]
  rw [hshown]
  refine ⟨hlead.trans hword, hbody, fun part hpart ↦ ?_, first, (hparts first).mpr (.head _), rfl⟩
  rcases List.mem_cons.mp ((hparts part).mp hpart) with rfl | hother
  · exact .inl rfl
  · exact .inr (statementBody_of_isBlank (hblank part hother))

/-- In a clear text the words decide. -/
theorem readsAnyway_iff_of_clear {engine : Engine} {sql : Text} (h : ClearText engine .code sql)
    (hone : OneStatement engine sql) (hreads : readsOnly sql = true) :
    ReadsAnyway engine sql ↔ ReadsByItsWords engine sql := by
  obtain ⟨verb, hverb, hstarts, hinto, hdml⟩ := readsOnly_cases hreads
  obtain ⟨-, -, -, hstarter, hwith⟩ := readVerbs_upper verb hverb
  obtain ⟨hlead, hne, hall, part, hpart, hbody⟩ := shown_of_clear h hone hverb hstarts
  rw [← hlead] at hstarter hwith
  have hreadonly : (∀ part ∈ statements sql, FoldedReadOnly part) ↔
      ReadsOnly (statementShown engine sql) (Gate.SafeMode.words (statementShown engine sql)) := by
    constructor
    · intro hfolded
      rw [← hbody]
      exact hfolded part hpart
    · intro hshown other hother
      unfold FoldedReadOnly
      rcases hall other hother with hsame | hnil
      · rwa [hsame]
      · exact .inl hnil
  constructor
  · intro hany
    have hshown := (hreadonly.mp hany.reads).resolve_left hne
    refine ⟨fun _ word hword ↦ hany.hidden word ?_, hshown.2.2, hshown.2.1⟩
    revert word
    decide
  · intro hwords
    refine ⟨hreadonly.mpr (.inr ⟨hstarter, hwords.selects, hwords.scanned⟩), ⟨part, hpart, hbody ▸ hne⟩, ?_⟩
    intro word hword hcode
    have hupper : ∀ word ∈ writeWords, ∀ c ∈ word, c.isUpper = true := by decide
    have hphrase := hasPhrase_of_mem_codeWords h (hupper word hword) hcode
    have hkinds : ∀ word ∈ writeWords, word = "INTO".toList ∨
        word ∈ ["INSERT".toList, "UPDATE".toList, "DELETE".toList, "MERGE".toList] ∧
          word.map Char.toLower ∈ dmlWords := by decide
    rcases hkinds word hword with rfl | ⟨hchanges, hlower⟩
    · rw [show "INTO".toList.map Char.toLower = "into".toList by decide, hinto] at hphrase
      exact absurd hphrase (by decide)
    · by_cases hlead' : leadWord (statementShown engine sql) = "WITH".toList
      · rw [hdml (hwith hlead') _ hlower] at hphrase
        exact absurd hphrase (by decide)
      · exact hwords.plain hlead' word hchanges hcode

end Squaero.Front
