import Squaero.Gate.Engines

/-!
# What the read-only gate lets through

The gate is fail-closed when no engine reads a write out of a text that the gate did not call one.
`GateHolds` says so of one text. The two blanked texts of the gate are judged correctly, so all
that can go wrong is that an engine reads the text in a third way. `Familiar` lists, position by
position, the lexical rules of an engine the gate does not know; where a text meets none of them
the engine reads what the gate blanked.
-/

namespace Squaero.Gate

open Squaero.Lib
open StmtClass

/-- Unless the gate calls `s` a write, no engine reads a write out of it. -/
def GateHolds (s : Text) : Prop :=
  stmtClassify s ≠ .write → ∀ engine : Engine, ¬ Writes (engine.reading s)

instance (s : Text) : Decidable (GateHolds s) :=
  decidable_of_iff (stmtClassify s ≠ .write → ∀ engine ∈
      [Engine.mysql, .postgres, .sqlite, .mssql, .informix], ¬ Writes (engine.reading s)) (by
    refine imp_congr_right fun _ ↦ ⟨fun h engine ↦ h engine ?_, fun h engine _ ↦ h engine⟩
    cases engine <;> simp)

/-! ## The verdict on a blanked text -/

/-- What the words of a statement say of it. -/
def verdict (body : Text) (words : List Text) : StmtClass :=
  if body = [] then .empty
  else if leadWord body = [] then .write
  else if leadWord body = "WITH".toList ∨ leadWord body = "EXPLAIN".toList then
    if ∃ word ∈ writeTokens, word ∈ words then .write else .read
  else if leadWord body = "SELECT".toList then if "INTO".toList ∈ words then .write else .read
  else if leadWord body ∈ readLeaders then .read
  else .write

/-- The starters are the scanned words and the leaders that need no scan. -/
theorem mem_readStarters_iff {word : Text} :
    word ∈ readStarters ↔
      word ∈ ["WITH".toList, "EXPLAIN".toList] ∨ word = "SELECT".toList ∨ word ∈ readLeaders := by
  have hsplit : ∀ word ∈ readStarters, word ∈ ["WITH".toList, "EXPLAIN".toList] ∨
      word = "SELECT".toList ∨ word ∈ readLeaders := by decide
  have hscanned : ∀ word ∈ ["WITH".toList, "EXPLAIN".toList], word ∈ readStarters := by decide
  have hleaders : ∀ word ∈ readLeaders, word ∈ readStarters := by decide
  refine ⟨hsplit word, ?_⟩
  rintro (h | rfl | h)
  · exact hscanned word h
  · decide
  · exact hleaders word h

theorem verdict_eq_write_iff (body : Text) (words : List Text) :
    verdict body words = .write ↔ ¬ ReadsOnly body words := by
  unfold verdict ReadsOnly
  by_cases hbody : body = []
  · simp [hbody]
  simp only [hbody, if_false, false_or]
  by_cases hnil : leadWord body = []
  · have : [] ∉ readStarters := by decide
    simp [hnil, this]
  simp only [hnil, if_false, mem_readStarters_iff, List.mem_cons, List.not_mem_nil, or_false]
  by_cases hscan : leadWord body = "WITH".toList ∨ leadWord body = "EXPLAIN".toList
  · have hne : leadWord body ≠ "SELECT".toList := by
      rcases hscan with h | h <;> rw [h] <;> decide
    simp only [hscan, if_true, hne, false_imp_iff, true_or, true_and, true_imp_iff]
    by_cases hmem : ∃ word ∈ writeTokens, word ∈ words
    · obtain ⟨word, hword, hin⟩ := hmem
      simpa [show ∃ word ∈ writeTokens, word ∈ words from ⟨word, hword, hin⟩] using
        ⟨word, hin, hword⟩
    · simp only [hmem, if_false, reduceCtorEq, false_iff, not_not]
      exact fun word hin hword ↦ hmem ⟨word, hword, hin⟩
  by_cases hsel : leadWord body = "SELECT".toList
  · simp only [hscan, if_false, false_or, false_imp_iff, and_true]
    by_cases hin : "INTO".toList ∈ words <;>
      simp only [hsel, hin, if_true, if_false, true_or, true_and, true_imp_iff, not_true,
        not_false_iff, reduceCtorEq]
  · by_cases hlead : leadWord body ∈ readLeaders <;>
      simp only [hscan, hsel, hlead, if_true, if_false, false_or, or_false, true_and, false_and,
        false_imp_iff, not_true, not_false_iff, reduceCtorEq]

theorem verdict_eq_empty_iff (body : Text) (words : List Text) :
    verdict body words = .empty ↔ body = [] := by
  unfold verdict
  split_ifs <;> simp_all

theorem map_toUpper_eq_of_mem {tok word : Text} (h : word ∈ writeTokens ++ readStarters) :
    wordIs tok word ↔ tok.map Char.toUpper = word := by
  have hupper : ∀ word ∈ writeTokens ++ readStarters, word.map Char.toUpper = word := by decide
  rw [wordIs_iff, hupper word h]

theorem hasWord_eq_true_iff {s : Text} {words : List Text}
    (h : ∀ word ∈ words, word ∈ writeTokens ++ readStarters) :
    hasWord s words ↔ ∃ word ∈ words, word ∈ upperWords s := by
  rw [hasWord_iff]
  constructor
  · rintro ⟨tok, htok, word, hword, his⟩
    exact ⟨word, hword, List.mem_map.2 ⟨tok, htok, (map_toUpper_eq_of_mem (h word hword)).1 his⟩⟩
  · rintro ⟨word, hword, hmem⟩
    obtain ⟨tok, htok, heq⟩ := List.mem_map.1 hmem
    exact ⟨tok, htok, word, hword, (map_toUpper_eq_of_mem (h word hword)).2 heq⟩

theorem leadWord_eq_iff {body word : Text} (h : word ∈ readStarters) :
    wordIs (body.takeWhile isWordChar) word ↔ leadWord body = word :=
  map_toUpper_eq_of_mem (List.mem_append_right _ h)

theorem any_readLeaders_iff {body : Text} :
    readLeaders.any (wordIs (body.takeWhile isWordChar)) ↔ leadWord body ∈ readLeaders := by
  have hstarter : ∀ word ∈ readLeaders, word ∈ readStarters := by decide
  rw [List.any_eq_true]
  constructor
  · rintro ⟨word, hword, his⟩
    rwa [(leadWord_eq_iff (hstarter word hword)).1 his]
  · intro h
    exact ⟨_, h, (leadWord_eq_iff (hstarter _ h)).2 rfl⟩

theorem classifyStatement_eq_verdict (s : Text) :
    classifyStatement s = verdict (statementBody s) (upperWords s) := by
  have hwith := @leadWord_eq_iff (statementBody s) "WITH".toList (by decide)
  have hexplain := @leadWord_eq_iff (statementBody s) "EXPLAIN".toList (by decide)
  have hselect := @leadWord_eq_iff (statementBody s) "SELECT".toList (by decide)
  have hwrites : hasWord s writeTokens ↔ ∃ word ∈ writeTokens, word ∈ upperWords s :=
    hasWord_eq_true_iff fun word hword ↦ List.mem_append_left _ hword
  have hinto : hasWord s ["INTO".toList] ↔ "INTO".toList ∈ upperWords s := by
    rw [hasWord_eq_true_iff (by decide)]
    simp
  have hnil : leadWord (statementBody s) = [] ↔ (statementBody s).takeWhile isWordChar = [] :=
    List.map_eq_nil_iff
  simp only [classifyStatement, verdict, hwith, hexplain, hselect, hwrites, hinto, hnil,
    any_readLeaders_iff, Bool.or_eq_true]

/-- The classifier calls a blanked statement a write exactly when it is not a read. -/
theorem classifyStatement_eq_write_iff (s : Text) :
    classifyStatement s = .write ↔ ¬ ReadOnlyStatement s := by
  rw [classifyStatement_eq_verdict, verdict_eq_write_iff, ReadOnlyStatement]

theorem classifyNormalized_eq_write_iff_writes (norm : Text) :
    classifyNormalized norm = .write ↔ Writes norm := by
  simp only [classifyNormalized_eq_write_iff, Writes, classifyStatement_eq_write_iff]

theorem stmtClassify_eq_write_iff_writes (s : Text) :
    stmtClassify s = .write ↔ ∃ backslashEscapes, Writes (normalize s backslashEscapes) := by
  simp only [stmtClassify_eq_write_iff, classifyNormalized_eq_write_iff_writes]

/-! ## Texts an engine reads as the gate does -/

/-- The convention of the two that is the engine's own. -/
def Engine.backslashEscapes (engine : Engine) : Bool := engine = .mysql

/-- At this position of the gate's scan the engine has no rule of its own. -/
def Familiar (engine : Engine) : Mode → Char → Text → Prop
  | .code, c, rest =>
    match engine with
    | .mysql => c ≠ '#' ∧ ¬ (c = '/' ∧ ['*', '!'].isPrefixOf rest) ∧
        (c = '-' ∧ rest.head? = some '-' → Engine.endsDashes (rest.drop 1).head?)
    | .postgres => c ≠ '$' ∧ c ≠ '`'
    | .sqlite => c ≠ '`'
    | .mssql => c ≠ '[' ∧ c ≠ '`'
    | .informix => c ≠ '{' ∧ c ≠ '`'
  | .block, c, rest => engine = .postgres → ¬ (c = '/' ∧ rest.head? = some '*')
  | .quote q, c, _ => engine = .mysql → q = '`' → c ≠ '\\'
  | .line, _, _ => True
  | .skip _, _, _ => True

/-- The engine's place in the text is the gate's. -/
inductive SamePlace : Mode → Engine.Place → Prop
  | code (word : Bool) : SamePlace .code (.code false word)
  | line : SamePlace .line (.line false)
  | block : SamePlace .block (.block 0 false)
  | quote (q : Char) : SamePlace (.quote q) (.quote q false)
  | skip {mode : Mode} {place : Engine.Place} (after : SamePlace mode place) :
      SamePlace (.skip mode) (.skip place)

/-- Outside comments and quotes, at a familiar position. -/
theorem normalizeStep_readCode (engine : Engine) (word : Bool) {c : Char} {rest : Text}
    (hfamiliar : Familiar engine .code c rest) :
    (normalizeStep engine.backslashEscapes .code c rest).1 =
        (engine.readCode false word c rest).1 ∧
      SamePlace (normalizeStep engine.backslashEscapes .code c rest).2
        (engine.readCode false word c rest).2 := by
  have hdashes : (c = '-' ∧ rest.head? = some '-') ↔ (c = '-' ∧ rest.head? = some '-' ∧
      (engine = .mysql → Engine.endsDashes (rest.drop 1).head?)) := by
    refine ⟨fun h ↦ ⟨h.1, h.2, ?_⟩, fun h ↦ ⟨h.1, h.2.1⟩⟩
    rintro rfl
    exact hfamiliar.2.2 h
  have hquote : engine.isQuote c = StmtClass.isQuote c := by
    cases engine <;> simp_all [Familiar, Engine.isQuote, StmtClass.isQuote]
  have hhash : ¬ (engine = .mysql ∧ c = '#') := by
    rintro ⟨rfl, rfl⟩
    exact hfamiliar.1 rfl
  have hexec : ¬ (engine = .mysql ∧ c = '/' ∧ ['*', '!'].isPrefixOf rest) := by
    rintro ⟨rfl, h⟩
    exact hfamiliar.2.1 h
  have hbrace : ¬ (engine = .informix ∧ c = '{') := by
    rintro ⟨rfl, rfl⟩
    exact hfamiliar.1 rfl
  have hbracket : ¬ (engine = .mssql ∧ c = '[') := by
    rintro ⟨rfl, rfl⟩
    exact hfamiliar.1 rfl
  have hdollar : ¬ (engine = .postgres ∧ c = '$' ∧ (!word) = true) := by
    rintro ⟨rfl, rfl, -⟩
    exact hfamiliar.1 rfl
  have hopen : ¬ ((false : Bool) = true ∧ c = '*' ∧ rest.head? = some '/') := by simp
  simp only [normalizeStep, Engine.readCode, hdashes, if_neg hhash, if_neg hexec, if_neg hbrace,
    if_neg hbracket, if_neg hdollar, if_neg hopen, hquote]
  split
  · exact ⟨rfl, .line⟩
  split
  · exact ⟨rfl, .skip .block⟩
  split
  · exact ⟨rfl, .quote c⟩
  · exact ⟨rfl, .code _⟩

/-- At a familiar position the engine blanks what the gate blanks and goes where it goes. -/
theorem normalizeStep_readStep (engine : Engine) {mode : Mode} {place : Engine.Place} {c : Char}
    {rest : Text} (hplace : SamePlace mode place) (hfamiliar : Familiar engine mode c rest) :
    (normalizeStep engine.backslashEscapes mode c rest).1 = (engine.readStep place c rest).1 ∧
      SamePlace (normalizeStep engine.backslashEscapes mode c rest).2
        (engine.readStep place c rest).2 := by
  cases hplace with
  | code word => exact normalizeStep_readCode engine word hfamiliar
  | line =>
    simp only [normalizeStep, Engine.readStep]
    split
    · exact ⟨rfl, .code false⟩
    · exact ⟨rfl, .line⟩
  | block =>
    simp only [normalizeStep, Engine.readStep]
    split
    · exact ⟨rfl, .skip (.code false)⟩
    · rw [if_neg (by simpa [Familiar] using hfamiliar)]
      exact ⟨rfl, .block⟩
  | quote q =>
    have hescape : (engine.backslashEscapes ∧ c = '\\' ∧ rest ≠ []) ↔
        (engine = .mysql ∧ q ≠ '`' ∧ c = '\\' ∧ rest ≠ []) := by
      have : q = '`' → engine = .mysql → c ≠ '\\' := fun hq he ↦ hfamiliar he hq
      simp only [Engine.backslashEscapes, decide_eq_true_eq]
      tauto
    simp only [normalizeStep, Engine.readStep, hescape]
    split
    · exact ⟨rfl, .skip (.quote q)⟩
    split
    · next hclose =>
      split
      · exact ⟨rfl, .skip (.quote q)⟩
      · exact ⟨hclose.symm, .code false⟩
    · exact ⟨rfl, .quote q⟩
  | skip after => exact ⟨rfl, after⟩

/-- Where every position is familiar the engine reads one of the two blanked texts. -/
theorem reading_eq_normalize (engine : Engine) {s : Text}
    (h : ModeMachine.Along (normalizeStep engine.backslashEscapes) (Familiar engine) .code s) :
    engine.reading s = normalize s engine.backslashEscapes :=
  (ModeMachine.run_eq_run_of_along (fun _ _ _ _ ↦ normalizeStep_readStep engine)
    (.code false) h).symm

end Squaero.Gate
