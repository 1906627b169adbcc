import Squaero.Gate.SafeMode
import Squaero.Gate.Utf8

/-!
# Where the two gates agree

The safe mode of the frontend and the gate of the core blank a text alike, so they judge the same
statements. They differ in two things: the blanks that may lead a statement, where JavaScript knows
more than C, and the words they look for, which JavaScript takes from the upper-cased statement. A
text whose characters are `Shared` meets neither difference.
-/

namespace Squaero.Gate

open Squaero.Lib

/-- A blank for both gates or for none, and upper-cased by both alike. -/
def Shared (c : Char) : Prop := isJsSpace c = isSpace c ∧ jsUpperChar c = [c.toUpper]

/-- The statements of both blanked texts. -/
def statements (s : Text) : List Text :=
  [false, true].flatMap fun mode ↦ (StmtClass.normalize s mode).splitOn ';'

/-- What the safe mode takes for a read. -/
def FoldedReadOnly (statement : Text) : Prop :=
  ReadsOnly (SafeMode.statementBody statement) (SafeMode.words (SafeMode.statementBody statement))

/-! ## The classifier of the safe mode -/

theorem normalizeStep_eq (backslashEscapes : Bool) (mode : Mode) (c : Char) (rest : Text) :
    SafeMode.normalizeStep backslashEscapes mode c rest =
      StmtClass.normalizeStep backslashEscapes mode c rest := by
  cases mode with
  | code =>
    have hquote : (c = '\'' ∨ c = '"' ∨ c = '`') ↔ StmtClass.isQuote c := by
      simp [StmtClass.isQuote, or_assoc]
    simp only [SafeMode.normalizeStep, StmtClass.normalizeStep, hquote]
  | line => simp only [SafeMode.normalizeStep, StmtClass.normalizeStep, ite_not]
  | block => simp only [SafeMode.normalizeStep, StmtClass.normalizeStep, ite_not]
  | quote q =>
    simp only [SafeMode.normalizeStep, StmtClass.normalizeStep]
    split_ifs with _ hclose <;> first | rfl | rw [hclose]
  | skip after => rfl

theorem safeMode_normalize_eq (s : Text) (backslashEscapes : Bool) :
    SafeMode.normalize s backslashEscapes = StmtClass.normalize s backslashEscapes := by
  have hstep : SafeMode.normalizeStep backslashEscapes =
      StmtClass.normalizeStep backslashEscapes := by
    funext mode c rest
    exact normalizeStep_eq backslashEscapes mode c rest
  rw [SafeMode.normalize, StmtClass.normalize, hstep]

theorem jsUpperChar_of_not_isWide {c : Char} (h : isWide c = false) :
    jsUpperChar c = [c.toUpper] := by
  unfold jsUpperChar
  split <;> first | rfl | simp [isWide] at h

theorem jsUpper_eq_map {text : Text} (h : ∀ c ∈ text, jsUpperChar c = [c.toUpper]) :
    jsUpper text = text.map Char.toUpper := by
  induction text with
  | nil => rfl
  | cons c text ih =>
    rw [List.forall_mem_cons] at h
    have hrest : text.flatMap jsUpperChar = text.map Char.toUpper := ih h.2
    rw [jsUpper, List.flatMap_cons, hrest, h.1, List.map_cons, List.singleton_append]

theorem jsUpper_takeWhile_isWordChar (text : Text) :
    jsUpper (text.takeWhile isWordChar) = leadWord text := by
  apply jsUpper_eq_map
  intro c hc
  apply jsUpperChar_of_not_isWide
  by_contra hwide
  have hword : isWordChar c = true := List.mem_takeWhile_imp hc
  simp [isWordChar_of_isWide (by simpa using hwide)] at hword

theorem safeMode_classifyStatement_eq_verdict (s : Text) :
    SafeMode.classifyStatement s =
      verdict (SafeMode.statementBody s) (SafeMode.words (SafeMode.statementBody s)) := by
  have hany : (SafeMode.words (SafeMode.statementBody s)).any (· ∈ SafeMode.writeTokens) ↔
      ∃ word ∈ StmtClass.writeTokens, word ∈ SafeMode.words (SafeMode.statementBody s) := by
    simp only [List.any_eq_true, decide_eq_true_eq, and_comm]
    rfl
  simp only [SafeMode.classifyStatement, verdict, jsUpper_takeWhile_isWordChar, hany]
  rfl

/-! ## Shared characters -/

theorem splitOnP_map {α β : Type*} (f : α → β) (p : β → Bool) (xs : List α) :
    (xs.map f).splitOnP p = (xs.splitOnP (p ∘ f)).map (List.map f) := by
  induction xs with
  | nil => rfl
  | cons x xs ih =>
    obtain ⟨part, parts, hparts⟩ := List.exists_cons_of_ne_nil (List.splitOnP_ne_nil (p ∘ f) xs)
    rw [List.map_cons, List.splitOnP_cons_eq_if_modifyHead, List.splitOnP_cons_eq_if_modifyHead, ih,
      hparts]
    by_cases hx : p (f x) <;> simp [hx]

theorem isUpperWordChar_toUpper (c : Char) :
    SafeMode.isUpperWordChar c.toUpper = isWordChar c := by
  by_cases hlower : c.isLower
  · have hrange : 97 ≤ c.toNat ∧ c.toNat ≤ 122 := by
      simpa [isLower_eq, UInt32.le_iff_toNat_le] using hlower
    obtain ⟨k, rfl⟩ : ∃ k : Fin 26, Char.ofNat (97 + k) = c := by
      refine ⟨⟨c.toNat - 97, by omega⟩, ?_⟩
      rw [show 97 + (c.toNat - 97) = c.toNat by omega, Char.ofNat_toNat]
    have hletters : ∀ k : Fin 26, SafeMode.isUpperWordChar (Char.ofNat (97 + k)).toUpper =
        isWordChar (Char.ofNat (97 + k)) := by decide
    exact hletters k
  · have hsame : c.toUpper = c := by
      refine dif_neg ?_
      simpa [isLower_eq] using hlower
    simp [SafeMode.isUpperWordChar, isWordChar, hsame, hlower, isAlpha_eq]

theorem words_eq_upperWords {s : Text} (h : ∀ c ∈ s, Shared c) :
    SafeMode.words s = upperWords s := by
  have hchars : (fun c ↦ !SafeMode.isUpperWordChar c) ∘ Char.toUpper = fun c ↦ !isWordChar c := by
    funext c
    rw [Function.comp_apply, isUpperWordChar_toUpper]
  rw [SafeMode.words, jsUpper_eq_map fun c hc ↦ (h c hc).2, splitOnP_map, hchars, upperWords,
    StmtClass.wordRuns, List.filter_map]
  congr 1
  apply List.filter_congr
  intro word _
  simp

theorem statementBody_eq {s : Text} (h : ∀ c ∈ s, Shared c) :
    SafeMode.statementBody s = StmtClass.statementBody s := by
  induction s with
  | nil => rfl
  | cons c s ih =>
    rw [List.forall_mem_cons] at h
    have hrest : s.dropWhile _ = s.dropWhile _ := ih h.2
    rw [SafeMode.statementBody, StmtClass.statementBody, List.dropWhile_cons, List.dropWhile_cons,
      h.1.1, hrest]

/-- What leads a statement holds no word. -/
theorem upperWords_statementBody (s : Text) :
    upperWords (StmtClass.statementBody s) = upperWords s := by
  induction s with
  | nil => rfl
  | cons c s ih =>
    rw [StmtClass.statementBody, List.dropWhile_cons]
    split
    next hlead =>
      have hword : isWordChar c = false := by
        simp only [Bool.or_eq_true, decide_eq_true_eq] at hlead
        rcases hlead with hspace | rfl
        · exact isWordChar_of_isSpace hspace
        · decide
      have hone : StmtClass.wordRuns (c :: s) = StmtClass.wordRuns s :=
        wordRuns_append_separators (List.cons_ne_nil c []) (by simpa using hword) [] s
      have hwords : upperWords (c :: s) = upperWords s := congrArg (List.map _) hone
      rw [hwords]
      exact ih
    next => rfl

theorem foldedReadOnly_iff_of_shared {s : Text} (h : ∀ c ∈ s, Shared c) :
    FoldedReadOnly s ↔ ReadOnlyStatement s := by
  have hbody : ∀ c ∈ StmtClass.statementBody s, Shared c := fun c hc ↦
    h c ((List.dropWhile_sublist _).subset hc)
  rw [FoldedReadOnly, ReadOnlyStatement, statementBody_eq h, words_eq_upperWords hbody,
    upperWords_statementBody]

/-- Blanking adds nothing but blanks. -/
theorem mem_normalize {s : Text} {backslashEscapes : Bool} {c : Char}
    (h : c ∈ StmtClass.normalize s backslashEscapes) : c ∈ s ∨ c = ' ' := by
  have hemit : ∀ mode d rest,
      (StmtClass.normalizeStep backslashEscapes mode d rest).1 = d ∨
        (StmtClass.normalizeStep backslashEscapes mode d rest).1 = ' ' := by
    intro mode d rest
    cases mode <;> simp only [StmtClass.normalizeStep] <;> (try split_ifs) <;> simp_all
  have hrun : ∀ (text : Text) (mode : Mode),
      c ∈ ModeMachine.run (StmtClass.normalizeStep backslashEscapes) mode text →
        c ∈ text ∨ c = ' ' := by
    intro text
    induction text with
    | nil => simp
    | cons d rest ih =>
      intro mode hc
      rw [ModeMachine.run_cons, List.mem_cons] at hc
      rcases hc with rfl | hc
      · exact (hemit mode d rest).imp (fun hd ↦ by simp [hd]) id
      · exact (ih _ hc).imp_left (List.mem_cons_of_mem d)
  exact hrun s .code h

/-- No part of a split holds a character the text does not hold. -/
theorem mem_of_mem_splitOn {c d : Char} {text part : Text} (hpart : part ∈ text.splitOn d)
    (hc : c ∈ part) : c ∈ text := by
  induction text generalizing part with
  | nil => simp_all
  | cons e text ih =>
    obtain ⟨first, parts, hparts⟩ := List.exists_cons_of_ne_nil (List.splitOn_ne_nil d text)
    rw [List.splitOn_cons_eq_if_modifyHead, hparts] at hpart
    split at hpart
    · rcases List.mem_cons.1 hpart with rfl | hpart
      · simp at hc
      · exact List.mem_cons_of_mem e (ih (hparts ▸ hpart) hc)
    · rcases List.mem_cons.1 hpart with rfl | hpart
      · rcases List.mem_cons.1 hc with rfl | hc
        · exact List.mem_cons_self
        · exact List.mem_cons_of_mem e (ih (by simp [hparts]) hc)
      · exact List.mem_cons_of_mem e (ih (by simp [hparts, hpart]) hc)

theorem shared_blank : Shared ' ' := by
  constructor <;> decide

theorem shared_of_mem_statements {s part : Text} (h : ∀ c ∈ s, Shared c)
    (hpart : part ∈ statements s) : ∀ c ∈ part, Shared c := by
  intro c hc
  obtain ⟨mode, -, hsplit⟩ := List.mem_flatMap.1 hpart
  rcases mem_normalize (mem_of_mem_splitOn hsplit hc) with hmem | rfl
  · exact h c hmem
  · exact shared_blank

/-! ## Agreement -/

/-- Both gates combine the verdicts on `statements` in one way. -/
theorem tally_statements (f : Text → StmtClass) (s : Text) :
    let combined := tally (fun mode ↦ tally f .empty ((StmtClass.normalize s mode).splitOn ';'))
      .empty [false, true]
    (combined = .write ↔ ∃ part ∈ statements s, f part = .write) ∧
      (combined = .empty ↔ ∀ part ∈ statements s, f part = .empty) := by
  have hne : StmtClass.empty ≠ .write := by decide
  refine ⟨?_, ?_⟩
  · simp only [tally_eq_write_iff hne, statements, List.mem_flatMap]
    constructor
    · rintro ⟨mode, hmode, part, hpart, hf⟩
      exact ⟨part, ⟨mode, hmode, hpart⟩, hf⟩
    · rintro ⟨part, ⟨mode, hmode, hpart⟩, hf⟩
      exact ⟨mode, hmode, part, hpart, hf⟩
  · simp only [tally_eq_empty_iff, true_and, statements, List.mem_flatMap]
    constructor
    · rintro h part ⟨mode, hmode, hpart⟩
      exact h mode hmode part hpart
    · intro h mode hmode part hpart
      exact h part ⟨mode, hmode, hpart⟩

theorem eq_iff_write_iff_empty {a b : StmtClass} :
    a = b ↔ (a = .write ↔ b = .write) ∧ (a = .empty ↔ b = .empty) := by
  cases a <;> cases b <;> decide

/-- A read is nothing to the one gate where it is nothing to the other: it starts with a word. -/
theorem statementBody_eq_nil_iff {s : Text} (hread : ReadOnlyStatement s) :
    SafeMode.statementBody s = [] ↔ StmtClass.statementBody s = [] := by
  constructor
  · intro hnil
    by_contra hbody
    rcases hread with hempty | ⟨hlead, -⟩
    · exact hbody hempty
    obtain ⟨c, rest, hcons⟩ := List.exists_cons_of_ne_nil hbody
    have hc : isWordChar c := by
      by_contra hword
      rw [leadWord, hcons, List.takeWhile_cons_of_neg hword] at hlead
      exact absurd hlead (by decide)
    have hmem : c ∈ s := (List.dropWhile_sublist _).subset (hcons ▸ List.mem_cons_self)
    have hskip := List.dropWhile_eq_nil_iff.1 hnil c hmem
    simp only [Bool.or_eq_true, decide_eq_true_eq] at hskip
    rcases hskip with hspace | rfl
    · simp [isWordChar_of_isJsSpace hspace] at hc
    · exact absurd hc (by decide)
  · intro hnil
    have hskip := List.dropWhile_eq_nil_iff.1 hnil
    apply List.dropWhile_eq_nil_iff.2
    intro c hc
    have := hskip c hc
    simp only [Bool.or_eq_true, isJsSpace] at this ⊢
    tauto

/-- The core's verdict on the characters, through the statements. -/
theorem stmtClassify_iff_statements (s : Text) :
    (StmtClass.stmtClassify s = .write ↔ ∃ part ∈ statements s, ¬ ReadOnlyStatement part) ∧
      (StmtClass.stmtClassify s = .empty ↔
        ∀ part ∈ statements s, StmtClass.statementBody part = []) := by
  have htally : StmtClass.stmtClassify s = tally (fun mode ↦ tally StmtClass.classifyStatement
      .empty ((StmtClass.normalize s mode).splitOn ';')) .empty [false, true] := by
    by_cases hs : s = []
    · subst hs
      decide
    · simp only [StmtClass.stmtClassify, hs, if_false, StmtClass.classifyNormalized]
  rw [htally, (tally_statements _ s).1, (tally_statements _ s).2]
  simp only [classifyStatement_eq_verdict, verdict_eq_write_iff, verdict_eq_empty_iff,
    ReadOnlyStatement, and_self]

/-- The safe mode's verdict outside MongoDB, through the same statements. -/
theorem classifySql_iff_statements (s : Text) (engine : Option Text)
    (hengine : jsLower (engine.getD []) ≠ "mongodb".toList) :
    (SafeMode.classifySql s engine = .write ↔ ∃ part ∈ statements s, ¬ FoldedReadOnly part) ∧
      (SafeMode.classifySql s engine = .empty ↔
        ∀ part ∈ statements s, SafeMode.statementBody part = []) := by
  have htally : SafeMode.classifySql s engine = tally (fun mode ↦ tally SafeMode.classifyStatement
      .empty ((StmtClass.normalize s mode).splitOn ';')) .empty [false, true] := by
    by_cases hs : s = []
    · subst hs
      rw [SafeMode.classifySql, if_pos rfl]
      decide
    · simp only [SafeMode.classifySql, hs, if_false, hengine, SafeMode.classifyNormalized,
        safeMode_normalize_eq]
  rw [htally, (tally_statements _ s).1, (tally_statements _ s).2]
  simp only [safeMode_classifyStatement_eq_verdict, verdict_eq_write_iff, verdict_eq_empty_iff,
    FoldedReadOnly, and_self]

end Squaero.Gate
