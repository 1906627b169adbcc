import Squaero.Gate.ReadGate
import Squaero.Lib.Utf8

/-!
# The gate does not see the encoding

The core classifies the UTF-8 bytes of a text. A character outside ASCII is several bytes there,
and where it is blanked several blanks; none of these is a character the gate singles out, so the
verdict on the bytes is the verdict on the characters. `Blurred` relates the two blanked texts and
every stage of the classifier respects it.
-/

namespace Squaero.Gate

open Squaero.Lib
open StmtClass

/-- `bytes` is the blanked text `chars` as the core has it: encoded, and with blanks repeated. -/
inductive Blurred : Text → Text → Prop
  | nil : Blurred [] []
  | char (c : Char) {chars bytes : Text} (rest : Blurred chars bytes) :
      Blurred (c :: chars) (utf8Bytes c ++ bytes)
  | blank (extra : ℕ) {chars bytes : Text} (rest : Blurred chars bytes) :
      Blurred (' ' :: chars) (List.replicate (extra + 1) ' ' ++ bytes)

namespace Blurred

theorem append {chars bytes chars' bytes' : Text} (h : Blurred chars bytes)
    (h' : Blurred chars' bytes') : Blurred (chars ++ chars') (bytes ++ bytes') := by
  induction h with
  | nil => exact h'
  | char c _ ih => simpa only [List.cons_append, List.append_assoc] using char c ih
  | blank extra _ ih => simpa only [List.cons_append, List.append_assoc] using blank extra ih

theorem singleton (c : Char) : Blurred [c] (utf8Bytes c) := by
  simpa only [List.append_nil] using char c nil

/-- One blank for a character that is blanked byte by byte. -/
theorem blanks {bytes : Text} (h : bytes ≠ []) :
    Blurred [' '] (bytes.map fun _ ↦ ' ') := by
  obtain ⟨first, more, rfl⟩ := List.exists_cons_of_ne_nil h
  simpa [List.replicate_succ, List.map_const'] using blank more.length nil

end Blurred

/-! ## Blanking -/

/-- What holds of the loop's mode in front of `text`: quotes are ASCII, and a step over the second
character of a comment mark is followed by that character. -/
def Ready : Mode → Text → Prop
  | .quote q, _ => isWide q = false
  | .skip (.quote q), _ => isWide q = false
  | .skip .code, text => ∀ c ∈ text.head?, isWide c = false
  | .skip .block, text => ∀ c ∈ text.head?, isWide c = false
  | .skip _, _ => False
  | _, _ => True

theorem isWide_of_isQuote {c : Char} (h : isQuote c) : isWide c = false := by
  simp only [isQuote, Bool.or_eq_true, decide_eq_true_eq] at h
  rcases h with (rfl | rfl) | rfl <;> decide

theorem ready_normalizeStep (backslashEscapes : Bool) {mode : Mode} {c : Char} {rest : Text}
    (h : Ready mode (c :: rest)) : Ready (normalizeStep backslashEscapes mode c rest).2 rest := by
  cases mode with
  | code =>
    simp only [normalizeStep]
    split_ifs with hdash hstar hquote
    · trivial
    · intro d hd
      rw [hstar.2, Option.mem_some_iff] at hd
      rw [← hd]
      decide
    · exact isWide_of_isQuote hquote
    · trivial
  | line =>
    simp only [normalizeStep]
    split_ifs <;> trivial
  | block =>
    simp only [normalizeStep]
    split_ifs with hstar
    · intro d hd
      rw [hstar.2, Option.mem_some_iff] at hd
      rw [← hd]
      decide
    · trivial
  | quote q =>
    simp only [normalizeStep]
    split_ifs
    · exact h
    · exact h
    · trivial
    · exact h
  | skip after =>
    cases after with
    | quote q => exact h
    | code => trivial
    | block => trivial
    | line => exact h.elim
    | skip _ => exact h.elim

/-- On an ASCII character the loop does not see how what follows is encoded. -/
theorem normalizeStep_utf8 (backslashEscapes : Bool) {mode : Mode} {c : Char} {rest : Text}
    (h : Ready mode (c :: rest)) :
    normalizeStep backslashEscapes mode c (utf8 rest) =
      normalizeStep backslashEscapes mode c rest := by
  cases mode with
  | quote q =>
    have hq : isWide q = false := h
    simp only [normalizeStep, head?_utf8_eq_some_iff hq, utf8_ne_nil_iff]
  | _ =>
    simp only [normalizeStep, head?_utf8_eq_some_iff (show isWide '-' = false by decide),
      head?_utf8_eq_some_iff (show isWide '*' = false by decide),
      head?_utf8_eq_some_iff (show isWide '/' = false by decide)]

/-- The modes that blank what they read. -/
def Blanking (mode : Mode) : Prop := mode = .line ∨ mode = .block ∨ ∃ q, mode = .quote q

theorem ready_of_blanking {mode : Mode} (hmode : Blanking mode) {text : Text}
    (h : Ready mode text) (other : Text) : Ready mode other := by
  rcases hmode with rfl | rfl | ⟨q, rfl⟩ <;> exact h

theorem normalizeStep_code_of_isWide (backslashEscapes : Bool) {c : Char} (rest : Text)
    (hc : isWide c) : normalizeStep backslashEscapes .code c rest = (c, .code) := by
  have hdash : c ≠ '-' := ne_of_isWide hc (by decide)
  have hslash : c ≠ '/' := ne_of_isWide hc (by decide)
  have hquote : isQuote c = false := by
    by_contra h
    simp [isWide_of_isQuote (by simpa using h)] at hc
  simp [normalizeStep, hdash, hslash, hquote]

theorem normalizeStep_blanking_of_isWide (backslashEscapes : Bool) {mode : Mode} {c : Char}
    (rest : Text) (hmode : Blanking mode) (hready : Ready mode (c :: rest)) (hc : isWide c) :
    normalizeStep backslashEscapes mode c rest = (' ', mode) := by
  rcases hmode with rfl | rfl | ⟨q, rfl⟩
  · have : c ≠ '\n' := ne_of_isWide hc (by decide)
    simp [normalizeStep, this]
  · have : c ≠ '*' := ne_of_isWide hc (by decide)
    simp [normalizeStep, this]
  · have hslash : c ≠ '\\' := ne_of_isWide hc (by decide)
    have hq : c ≠ q := ne_of_isWide hc hready
    simp [normalizeStep, hslash, hq]

theorem run_code_of_isWide (backslashEscapes : Bool) (tail : Text) :
    ∀ {bytes : Text}, (∀ b ∈ bytes, isWide b) →
      ModeMachine.run (normalizeStep backslashEscapes) .code (bytes ++ tail) =
        bytes ++ ModeMachine.run (normalizeStep backslashEscapes) .code tail
  | [], _ => rfl
  | b :: bytes, h => by
    rw [List.forall_mem_cons] at h
    rw [List.cons_append, ModeMachine.run_cons, normalizeStep_code_of_isWide _ _ h.1,
      run_code_of_isWide backslashEscapes tail h.2, List.cons_append]

theorem run_blanking_of_isWide (backslashEscapes : Bool) {mode : Mode} (tail : Text)
    (hmode : Blanking mode) (hready : ∀ text, Ready mode text) :
    ∀ {bytes : Text}, (∀ b ∈ bytes, isWide b) →
      ModeMachine.run (normalizeStep backslashEscapes) mode (bytes ++ tail) =
        (bytes.map fun _ ↦ ' ') ++ ModeMachine.run (normalizeStep backslashEscapes) mode tail
  | [], _ => rfl
  | b :: bytes, h => by
    rw [List.forall_mem_cons] at h
    rw [List.cons_append, ModeMachine.run_cons,
      normalizeStep_blanking_of_isWide _ _ hmode (hready _) h.1,
      run_blanking_of_isWide backslashEscapes tail hmode hready h.2, List.map_cons,
      List.cons_append]

theorem isWide_normalizeStep (backslashEscapes : Bool) (mode : Mode) {c : Char} (rest : Text)
    (hc : isWide c = false) : isWide (normalizeStep backslashEscapes mode c rest).1 = false := by
  have hblank : isWide ' ' = false := by decide
  cases mode with
  | skip after => exact hblank
  | quote q =>
    simp only [normalizeStep]
    split_ifs with _ hclose <;> first | exact hblank | exact hclose ▸ hc
  | _ =>
    simp only [normalizeStep]
    split_ifs <;> first | exact hblank | exact hc

theorem eq_quote_of_ready {after : Mode} {c : Char} {rest : Text} (hc : isWide c)
    (h : Ready (.skip after) (c :: rest)) : ∃ q, after = .quote q := by
  cases after with
  | quote q => exact ⟨q, rfl⟩
  | code => simp [h c rfl] at hc
  | block => simp [h c rfl] at hc
  | line => exact h.elim
  | skip _ => exact h.elim

/-- Blanking the bytes is blanking the characters. -/
theorem blurred_run (backslashEscapes : Bool) {mode : Mode} {text : Text} (h : Ready mode text) :
    Blurred (ModeMachine.run (normalizeStep backslashEscapes) mode text)
      (ModeMachine.run (normalizeStep backslashEscapes) mode (utf8 text)) := by
  induction text generalizing mode with
  | nil => exact .nil
  | cons c rest ih =>
    have hnext := ih (ready_normalizeStep backslashEscapes h)
    rw [utf8_cons, ModeMachine.run_cons]
    cases hc : isWide c with
    | false =>
      rw [utf8Bytes_of_not_isWide hc, List.singleton_append, ModeMachine.run_cons,
        normalizeStep_utf8 backslashEscapes h]
      have hemit := isWide_normalizeStep backslashEscapes mode rest hc
      have hchar := Blurred.char (normalizeStep backslashEscapes mode c rest).1 hnext
      rwa [utf8Bytes_of_not_isWide hemit] at hchar
    | true =>
      obtain ⟨first, second, more, hbytes, hwide⟩ := utf8Bytes_of_isWide hc
      have hblanks := Blurred.blanks (utf8Bytes_ne_nil c)
      have hkind : mode = .code ∨ (∃ after, mode = .skip after) ∨ Blanking mode := by
        cases mode <;> simp [Blanking]
      rcases hkind with rfl | ⟨after, rfl⟩ | hmode
      · rw [normalizeStep_code_of_isWide _ _ hc] at hnext ⊢
        rw [run_code_of_isWide _ _ hwide]
        exact .char c hnext
      · -- Only an escape can step over a character outside ASCII, and its quote blanks the rest.
        obtain ⟨q, rfl⟩ := eq_quote_of_ready hc h
        rw [hbytes] at hblanks ⊢
        rw [hbytes, List.forall_mem_cons] at hwide
        rw [List.cons_append, ModeMachine.run_cons]
        simp only [normalizeStep] at hnext ⊢
        rw [run_blanking_of_isWide _ _ (.inr (.inr ⟨q, rfl⟩)) (fun _ ↦ h) hwide.2]
        exact hblanks.append hnext
      · rw [normalizeStep_blanking_of_isWide _ _ hmode h hc] at hnext ⊢
        rw [run_blanking_of_isWide _ _ hmode (ready_of_blanking hmode h) hwide]
        exact hblanks.append hnext

theorem blurred_normalize (text : Text) (backslashEscapes : Bool) :
    Blurred (normalize text backslashEscapes) (normalize (utf8 text) backslashEscapes) :=
  blurred_run backslashEscapes trivial

/-! ## Splitting and judging -/

theorem blurred_splitOn {chars bytes : Text} (h : Blurred chars bytes) :
    ∀ {before before' : Text}, Blurred before before' → ';' ∉ before → ';' ∉ before' →
      List.Forall₂ Blurred ((before ++ chars).splitOn ';') ((before' ++ bytes).splitOn ';') := by
  have hsemi : isWide ';' = false := by decide
  induction h with
  | nil =>
    intro before before' hbefore hmem hmem'
    simpa [List.splitOn_eq_singleton hmem, List.splitOn_eq_singleton hmem'] using hbefore
  | char c rest ih =>
    intro before before' hbefore hmem hmem'
    by_cases hc : c = ';'
    · subst hc
      rw [utf8Bytes_of_not_isWide hsemi, List.singleton_append,
        List.splitOn_append_cons_self_of_not_mem hmem,
        List.splitOn_append_cons_self_of_not_mem hmem']
      exact .cons hbefore (by simpa using ih .nil (by simp) (by simp))
    · have hmemc : ';' ∉ utf8Bytes c := not_mem_utf8Bytes hsemi hc
      have := ih (hbefore.append (Blurred.singleton c)) (by simp [hmem, Ne.symm hc])
        (by simp [hmem', hmemc])
      simpa only [List.append_assoc, List.singleton_append] using this
  | blank extra rest ih =>
    intro before before' hbefore hmem hmem'
    have hblank : Blurred [' '] (List.replicate (extra + 1) ' ') := by
      simpa using Blurred.blank extra .nil
    have := ih (hbefore.append hblank) (by simp [hmem]) (by simp [hmem'])
    simpa only [List.append_assoc, List.singleton_append] using this

/-- A run of separators ends a word. -/
theorem wordRuns_append_separators {separators : Text} (hne : separators ≠ [])
    (h : ∀ c ∈ separators, isWordChar c = false) (before after : Text) :
    wordRuns (before ++ (separators ++ after)) = wordRuns before ++ wordRuns after := by
  have hone : ∀ (c : Char) (before after : Text), isWordChar c = false →
      wordRuns (before ++ c :: after) = wordRuns before ++ wordRuns after := by
    intro c before after hc
    rw [wordRuns, List.splitOnP_append_cons before after (by simp [hc]), List.filter_append]
    rfl
  induction separators generalizing before with
  | nil => exact absurd rfl hne
  | cons c separators ih =>
    rw [List.forall_mem_cons] at h
    rw [List.cons_append, hone c _ _ h.1]
    by_cases hmore : separators = []
    · rw [hmore, List.nil_append]
    · have hrest := ih hmore h.2 []
      rw [List.nil_append] at hrest
      rw [hrest]
      rfl

theorem wordRuns_of_blurred {chars bytes : Text} (h : Blurred chars bytes) (before : Text) :
    wordRuns (before ++ chars) = wordRuns (before ++ bytes) := by
  induction h generalizing before with
  | nil => rfl
  | char c rest ih =>
    cases hc : isWordChar c with
    | true =>
      have hwide : isWide c = false := by
        by_contra hwide
        simp [isWordChar_of_isWide (by simpa using hwide)] at hc
      simpa [utf8Bytes_of_not_isWide hwide] using ih (before ++ [c])
    | false =>
      have hbytes : ∀ b ∈ utf8Bytes c, isWordChar b = false := by
        intro b hb
        cases hwide : isWide c with
        | false =>
          rw [utf8Bytes_of_not_isWide hwide, List.mem_singleton] at hb
          rwa [hb]
        | true =>
          obtain ⟨first, second, more, -, hall⟩ := utf8Bytes_of_isWide hwide
          exact isWordChar_of_isWide (hall b hb)
      have hchar := @wordRuns_append_separators [c] (by simp) (by simpa using hc) before
      rw [wordRuns_append_separators (utf8Bytes_ne_nil c) hbytes]
      rw [← List.singleton_append, hchar]
      exact congrArg (wordRuns before ++ ·) (ih [])
  | blank extra rest ih =>
    have hblank : isWordChar ' ' = false := by decide
    have hone := @wordRuns_append_separators [' '] (by simp) (by simpa using hblank) before
    rw [wordRuns_append_separators (by simp) (by simp [hblank]), ← List.singleton_append, hone]
    exact congrArg (wordRuns before ++ ·) (ih [])

theorem blurred_statementBody {chars bytes : Text} (h : Blurred chars bytes) :
    Blurred (statementBody chars) (statementBody bytes) := by
  induction h with
  | nil => exact .nil
  | @char c chars bytes rest ih =>
    cases hc : isWide c with
    | false =>
      rw [utf8Bytes_of_not_isWide hc, List.singleton_append, statementBody, statementBody,
        List.dropWhile_cons, List.dropWhile_cons]
      split
      · exact ih
      · have hchar := Blurred.char c rest
        rwa [utf8Bytes_of_not_isWide hc] at hchar
    | true =>
      obtain ⟨first, second, more, hbytes, hwide⟩ := utf8Bytes_of_isWide hc
      have hkeep : ∀ b, isWide b → (isSpace b || decide (b = '(')) = false := by
        intro b hb
        have hparen : b ≠ '(' := ne_of_isWide hb (by decide)
        simp [isSpace_of_isWide hb, hparen]
      have hchar := Blurred.char c rest
      rw [hbytes] at hchar hwide ⊢
      rw [List.forall_mem_cons] at hwide
      rw [List.cons_append, statementBody, statementBody,
        List.dropWhile_cons_of_neg (by simp [hkeep c hc]),
        List.dropWhile_cons_of_neg (by simp [hkeep first hwide.1])]
      exact hchar
  | @blank extra chars bytes rest ih =>
    let skipped := fun c ↦ isSpace c || decide (c = '(')
    have hblank : skipped ' ' = true := by decide
    have hdrop : statementBody (List.replicate (extra + 1) ' ' ++ bytes) = statementBody bytes := by
      rw [statementBody, List.dropWhile_append_of_pos]
      · rfl
      · intro b hb
        rw [List.eq_of_mem_replicate hb]
        exact hblank
    have hone : statementBody (' ' :: chars) = statementBody chars :=
      @List.dropWhile_cons_of_pos _ skipped ' ' chars hblank
    rw [hdrop, hone]
    exact ih

theorem takeWhile_isWordChar_of_blurred {chars bytes : Text} (h : Blurred chars bytes) :
    chars.takeWhile isWordChar = bytes.takeWhile isWordChar := by
  induction h with
  | nil => rfl
  | char c rest ih =>
    cases hc : isWide c with
    | false =>
      rw [utf8Bytes_of_not_isWide hc, List.singleton_append, List.takeWhile_cons,
        List.takeWhile_cons, ih]
    | true =>
      obtain ⟨first, second, more, hbytes, hwide⟩ := utf8Bytes_of_isWide hc
      rw [hbytes, List.forall_mem_cons] at hwide
      rw [hbytes, List.cons_append,
        List.takeWhile_cons_of_neg (by simp [isWordChar_of_isWide hc]),
        List.takeWhile_cons_of_neg (by simp [isWordChar_of_isWide hwide.1])]
  | blank extra rest ih => rfl

theorem eq_nil_iff_of_blurred {chars bytes : Text} (h : Blurred chars bytes) :
    chars = [] ↔ bytes = [] := by
  cases h <;> simp [utf8Bytes_ne_nil]

theorem classifyStatement_of_blurred {chars bytes : Text} (h : Blurred chars bytes) :
    classifyStatement chars = classifyStatement bytes := by
  have hbody := blurred_statementBody h
  have hwords : upperWords chars = upperWords bytes := by
    have := wordRuns_of_blurred h []
    rw [upperWords, upperWords, ← List.nil_append chars, this, List.nil_append]
  have hlead : leadWord (statementBody chars) = leadWord (statementBody bytes) := by
    rw [leadWord, leadWord, takeWhile_isWordChar_of_blurred hbody]
  simp only [classifyStatement_eq_verdict, verdict, hwords, hlead, eq_nil_iff_of_blurred hbody]

theorem tally_eq_of_forall₂ {ι κ : Type*} {f : ι → StmtClass} {g : κ → StmtClass}
    {R : ι → κ → Prop} (hfg : ∀ i k, R i k → f i = g k) (overall : StmtClass) {items : List ι}
    {items' : List κ} (h : List.Forall₂ R items items') :
    tally f overall items = tally g overall items' := by
  induction h generalizing overall with
  | nil => rfl
  | cons hhead _ ih => simp only [tally, hfg _ _ hhead, ih]

/-- The core's verdict on the bytes of a text is its verdict on the characters. -/
theorem stmtClassify_utf8 (text : Text) : stmtClassify (utf8 text) = stmtClassify text := by
  have hmode : ∀ mode, classifyNormalized (normalize (utf8 text) mode) =
      classifyNormalized (normalize text mode) := by
    intro mode
    have hparts := blurred_splitOn (blurred_normalize text mode) .nil (by simp) (by simp)
    exact (tally_eq_of_forall₂ (fun _ _ h ↦ classifyStatement_of_blurred h) .empty hparts).symm
  have hnil : utf8 text = [] ↔ text = [] := by
    simpa using not_congr (@utf8_ne_nil_iff text)
  simp only [stmtClassify, hnil, hmode]

end Squaero.Gate
