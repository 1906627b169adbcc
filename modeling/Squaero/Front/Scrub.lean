import Squaero.Front.TxMode
import Squaero.Gate.ReadGate

/-!
# Scrubbed texts

`scrub` takes comments out before strings and knows no other quotes. Where a text holds no comment within
a quote, no apostrophe within another quote and none of the rules that the engine has for itself, it keeps
the code that the engine reads.
-/

namespace Squaero.Front

open Squaero.Lib Squaero.Gate
open Gate.StmtClass (normalizeStep isQuote)

/-- At this position of the gate's scan neither the engine nor `scrub` reads anything else. -/
def Clear (engine : Engine) : Mode → Char → Text → Prop
  | .quote q, c, rest => c ≠ '\\' ∧ ¬ (c = '-' ∧ rest.head? = some '-') ∧
      ¬ (c = '/' ∧ rest.head? = some '*') ∧ (c = '\'' → q = '\'')
  | .line, c, rest => ¬ (c = '/' ∧ rest.head? = some '*')
  | mode, c, rest => Familiar engine mode c rest

/-- A text to whose end every position is clear, and which ends outside comments and quotes. -/
structure ClearText (engine : Engine) (mode : Mode) (text : Text) : Prop where
  along : ModeMachine.Along (normalizeStep false) (Clear engine) mode text
  ends : ModeMachine.final (normalizeStep false) mode text ∈ [Mode.code, .line]

def blanks (text : Text) : Text := List.replicate text.length ' '

/-- A text, what the engine reads in it and what `scrub` makes of it. -/
inductive Scrubs : Text → Text → Text → Prop
  | nil : Scrubs [] [] []
  | code {c : Char} {rest read scrubbed : Text} (hdashes : ¬ ['-', '-'] <+: c :: rest)
      (hblock : ¬ ['/', '*'] <+: c :: rest) (hquote : isQuote c = false) (h : Scrubs rest read scrubbed) :
      Scrubs (c :: rest) (c :: read) (c :: scrubbed)
  | line {body rest read scrubbed : Text} (hbody : '\n' ∉ body) (hblock : ¬ ['/', '*'] <:+: body)
      (hrest : rest = [] ∨ ∃ more, rest = '\n' :: more) (h : Scrubs rest read scrubbed) :
      Scrubs (['-', '-'] ++ (body ++ rest)) (blanks (['-', '-'] ++ body) ++ read) (' ' :: scrubbed)
  | block {body rest read scrubbed : Text} (hbody : behindFirst ['*', '/'] (body ++ rest) = some rest)
      (h : Scrubs rest read scrubbed) :
      Scrubs (['/', '*'] ++ (body ++ rest)) (blanks (['/', '*'] ++ body) ++ read) (' ' :: scrubbed)
  | string {body rest read scrubbed : Text}
      (hbody : ∀ more, more.head? ≠ some '\'' → behindString (body ++ '\'' :: more) = some more)
      (hdashes : ¬ ['-', '-'] <:+: body) (hblock : ¬ ['/', '*'] <:+: body)
      (hrest : rest.head? ≠ some '\'') (h : Scrubs rest read scrubbed) :
      Scrubs ('\'' :: (body ++ '\'' :: rest)) ('\'' :: (blanks body ++ '\'' :: read))
        ('\'' :: '\'' :: scrubbed)
  | name {q : Char} {body rest read scrubbed : Text} (hq : isQuote q = true) (hbody : '\'' ∉ q :: body)
      (hdashes : ¬ ['-', '-'] <:+: body) (hblock : ¬ ['/', '*'] <:+: body)
      (h : Scrubs rest read scrubbed) :
      Scrubs (q :: (body ++ q :: rest)) (q :: (blanks body ++ q :: read)) (q :: (body ++ q :: scrubbed))

/-! ## The three replacements -/

theorem head?_replaceAll (pattern : Pattern) (text : Text) :
    (replaceAll pattern [' '] text).head? = text.head? ∨ (replaceAll pattern [' '] text).head? = some ' ' := by
  cases text with
  | nil => exact .inl rfl
  | cons c rest =>
    unfold replaceAll
    rw [replaceFrom]
    cases pattern (c :: rest) with
    | none => exact .inl rfl
    | some behind => exact .inr rfl

theorem pair_prefix_iff {a b c : Char} {rest : Text} :
    [a, b] <+: c :: rest ↔ a = c ∧ rest.head? = some b := by
  rw [List.cons_prefix_cons]
  cases rest with
  | nil => simp
  | cons d rest => simp [List.cons_prefix_cons, eq_comm]

/-- A part in which no pair of characters starts a match, nor at its end. -/
theorem replaceAll_quiet {pattern : Pattern} {put : Text} {a b : Char}
    (hpattern : ∀ text, ¬ [a, b] <+: text → pattern text = none) {part rest : Text}
    (hpart : ¬ [a, b] <:+: part) (hjoin : ¬ (part.getLast? = some a ∧ rest.head? = some b)) :
    replaceAll pattern put (part ++ rest) = part ++ replaceAll pattern put rest := by
  apply replaceAll_append
  rintro before c after rfl
  apply hpattern
  rw [pair_prefix_iff]
  rintro ⟨rfl, hhead⟩
  cases after with
  | nil => exact hjoin ⟨by simp, hhead⟩
  | cons d after =>
    obtain rfl : d = b := by simpa using hhead
    exact hpart ⟨before, after, by simp⟩

theorem stringLiteral_eq_none {c : Char} (hc : c ≠ '\'') (rest : Text) :
    stringLiteral (c :: rest) = none := by
  unfold stringLiteral
  split
  next hstart => exact absurd (List.cons.inj hstart).1 hc
  next => rfl

theorem replaceAll_stringLiteral {part : Text} (hpart : '\'' ∉ part) (put rest : Text) :
    replaceAll stringLiteral put (part ++ rest) = part ++ replaceAll stringLiteral put rest := by
  apply replaceAll_append
  rintro before c after rfl
  exact stringLiteral_eq_none (by rintro rfl; simp at hpart) _

theorem not_infix_quoted {a b q : Char} {body : Text} (ha : a ≠ q) (hb : b ≠ q) (h : ¬ [a, b] <:+: body) :
    ¬ [a, b] <:+: q :: (body ++ [q]) := by
  rw [List.infix_cons_iff, not_or]
  refine ⟨fun hbegins ↦ ha (List.cons_prefix_cons.mp hbegins).1, ?_⟩
  rintro ⟨before, after, hsplit⟩
  rcases List.eq_nil_or_concat after with rfl | ⟨after, d, rfl⟩
  · have hlast := congrArg List.getLast? hsplit
    simp at hlast
    exact hb hlast
  · rw [List.concat_eq_append, ← List.append_assoc] at hsplit
    exact h ⟨before, after, (List.append_inj_left' hsplit rfl)⟩

/-- The code and the quotes stay, and a comment becomes a blank. -/
theorem scrubCode_of_scrubs {text read scrubbed : Text} (h : Scrubs text read scrubbed) :
    scrubCode text = scrubbed := by
  unfold scrubCode
  induction h with
  | nil => rfl
  | @code c rest read scrubbed hdashes hblock hquote h ih =>
    have hstill : ¬ ['-', '-'] <+: c :: replaceAll blockComment [' '] rest := by
      rw [pair_prefix_iff] at hdashes ⊢
      rintro ⟨hc, hhead⟩
      rcases head?_replaceAll blockComment rest with hsame | hblank
      · exact hdashes ⟨hc, hsame ▸ hhead⟩
      · rw [hhead] at hblank
        exact absurd hblank (by decide)
    have hstring : c ≠ '\'' := by
      rintro rfl
      exact absurd hquote (by decide)
    rw [replaceAll_cons (blockComment_eq_none hblock), replaceAll_cons (lineComment_eq_none hstill),
      replaceAll_cons (stringLiteral_eq_none hstring _), ih]
  | @line body rest read scrubbed hbody hblock hrest h ih =>
    have hpart : ¬ ['/', '*'] <:+: ['-', '-'] ++ body := by
      simpa [List.infix_cons_iff, List.cons_prefix_cons] using hblock
    have hnext : rest.head? ≠ some '*' := by rcases hrest with rfl | ⟨more, rfl⟩ <;> simp
    have hbehind : replaceAll blockComment [' '] rest = [] ∨
        ∃ more, replaceAll blockComment [' '] rest = '\n' :: more := by
      rcases hrest with rfl | ⟨more, rfl⟩
      · exact .inl rfl
      · refine .inr ⟨_, replaceAll_cons (blockComment_eq_none ?_)⟩
        simp [List.cons_prefix_cons]
    rw [← List.append_assoc, replaceAll_quiet (fun _ ↦ blockComment_eq_none) hpart fun hjoin ↦ hnext hjoin.2,
      replaceAll_match (by simp) (by rw [List.append_assoc]; exact lineComment_append hbody hbehind),
      List.singleton_append, replaceAll_cons (stringLiteral_eq_none (by decide) _), ih]
  | @block body rest read scrubbed hbody h ih =>
    rw [← List.append_assoc, replaceAll_match (by simp) (by rw [List.append_assoc]; exact hbody),
      List.singleton_append, replaceAll_cons (lineComment_eq_none (by simp [List.cons_prefix_cons])),
      replaceAll_cons (stringLiteral_eq_none (by decide) _), ih]
  | @string body rest read scrubbed hbody hdashes hblock hrest h ih =>
    have hblocks := not_infix_quoted (q := '\'') (by decide) (by decide) hblock
    have hlines := not_infix_quoted (q := '\'') (by decide) (by decide) hdashes
    have hpart (more : Text) : '\'' :: (body ++ '\'' :: more) = ('\'' :: (body ++ ['\''])) ++ more := by simp
    have hlast : ('\'' :: (body ++ ['\''])).getLast? = some '\'' := by simp [List.getLast?_cons]
    have hfree : (replaceAll (lineComment ['-', '-']) [' ']
        (replaceAll blockComment [' '] rest)).head? ≠ some '\'' := by
      intro hhead
      rcases head?_replaceAll (lineComment ['-', '-'])
        (replaceAll blockComment [' '] rest) with hsame | hblank
      · rcases head?_replaceAll blockComment rest with hsame' | hblank
        · exact hrest (hsame' ▸ hsame ▸ hhead)
        · rw [← hsame, hhead] at hblank
          exact absurd hblank (by decide)
      · rw [hhead] at hblank
        exact absurd hblank (by decide)
    rw [hpart rest, replaceAll_quiet (fun _ ↦ blockComment_eq_none) hblocks (by rw [hlast]; simp),
      replaceAll_quiet (fun _ ↦ lineComment_eq_none) hlines (by rw [hlast]; simp),
      replaceAll_match (by simp) (by rw [← hpart]; exact hbody _ hfree), ih]
    rfl
  | @name q body rest read scrubbed hq hbody hdashes hblock h ih =>
    have hne {d : Char} (hd : isQuote d = false) : d ≠ q := by
      rintro rfl
      rw [hd] at hq
      exact absurd hq (by decide)
    have hpart (more : Text) : q :: (body ++ q :: more) = (q :: (body ++ [q])) ++ more := by simp
    have hlast : (q :: (body ++ [q])).getLast? = some q := by simp [List.getLast?_cons]
    have hstrings : '\'' ∉ q :: (body ++ [q]) := by
      rw [List.mem_cons, not_or] at hbody
      simp [hbody.1, hbody.2]
    have hslash : ¬ ((q :: (body ++ [q])).getLast? = some '/' ∧ rest.head? = some '*') := by
      rw [hlast, Option.some_inj]
      exact fun hjoin ↦ hne (by decide) hjoin.1.symm
    have hdash (more : Text) : ¬ ((q :: (body ++ [q])).getLast? = some '-' ∧ more.head? = some '-') := by
      rw [hlast, Option.some_inj]
      exact fun hjoin ↦ hne (by decide) hjoin.1.symm
    rw [hpart rest, replaceAll_quiet (fun _ ↦ blockComment_eq_none)
        (not_infix_quoted (hne (by decide)) (hne (by decide)) hblock) hslash,
      replaceAll_quiet (fun _ ↦ lineComment_eq_none)
        (not_infix_quoted (hne (by decide)) (hne (by decide)) hdashes) (hdash _),
      replaceAll_stringLiteral hstrings, ih, ← hpart scrubbed]

/-! ## Clear texts -/

variable {engine : Engine}

theorem clear_newline (engine : Engine) (rest : Text) : Clear engine .code '\n' rest := by
  have hhash : '\n' ≠ '#' := by decide
  have hdash : '\n' ≠ '-' := by decide
  have hslash : '\n' ≠ '/' := by decide
  have hbacktick : '\n' ≠ '`' := by decide
  cases engine with
  | mysql => exact ⟨hhash, fun h ↦ hslash h.1, fun h ↦ absurd h.1 hdash⟩
  | postgres => exact ⟨by decide, hbacktick⟩
  | sqlite => exact hbacktick
  | mssql => exact ⟨by decide, hbacktick⟩
  | informix => exact ⟨by decide, hbacktick⟩

theorem ClearText.next {mode : Mode} {c : Char} {rest : Text} (h : ClearText engine mode (c :: rest)) :
    ClearText engine (normalizeStep false mode c rest).2 rest :=
  ⟨h.along.2, h.ends⟩

/-- The rest of a line comment. -/
theorem ClearText.line {text : Text} (h : ClearText engine .line text) :
    ∃ body rest, text = body ++ rest ∧ '\n' ∉ body ∧ ¬ ['/', '*'] <:+: body ∧
      (rest = [] ∨ ∃ more, rest = '\n' :: more) ∧ ClearText engine .code rest ∧
        ModeMachine.run (normalizeStep false) .line text =
          blanks body ++ ModeMachine.run (normalizeStep false) .code rest := by
  induction text with
  | nil => exact ⟨[], [], rfl, by simp, by simp, .inl rfl, ⟨trivial, .head _⟩, rfl⟩
  | cons c text ih =>
    by_cases hc : c = '\n'
    · subst hc
      exact ⟨[], '\n' :: text, rfl, by simp, by simp, .inr ⟨text, rfl⟩,
        ⟨⟨clear_newline engine text, h.along.2⟩, h.ends⟩, rfl⟩
    · have hstep : normalizeStep false .line c text = (' ', .line) := by simp [normalizeStep, hc]
      have hnext := h.next
      rw [hstep] at hnext
      obtain ⟨body, rest, rfl, hbody, hblock, hrest, hclear, hrun⟩ := ih hnext
      have hopen : ¬ ['/', '*'] <+: c :: body := by
        rw [pair_prefix_iff]
        rintro ⟨rfl, hhead⟩
        refine h.along.1 ⟨rfl, ?_⟩
        rw [List.head?_append, hhead]
        rfl
      refine ⟨c :: body, rest, rfl, ?_, ?_, hrest, hclear, ?_⟩
      · rw [List.mem_cons, not_or]
        exact ⟨Ne.symm hc, hbody⟩
      · rw [List.infix_cons_iff, not_or]
        exact ⟨hopen, hblock⟩
      · rw [ModeMachine.run_cons, hstep, hrun]
        rfl

/-- The rest of a block comment. -/
theorem ClearText.block {text : Text} (h : ClearText engine .block text) :
    ∃ body rest, text = body ++ rest ∧ behindFirst ['*', '/'] (body ++ rest) = some rest ∧
      ClearText engine .code rest ∧ ModeMachine.run (normalizeStep false) .block text =
        blanks body ++ ModeMachine.run (normalizeStep false) .code rest := by
  induction text with
  | nil => exact absurd h.ends (by simp [ModeMachine.final])
  | cons c text ih =>
    by_cases hclose : ['*', '/'] <+: c :: text
    · obtain ⟨rest, hrest⟩ := hclose
      obtain ⟨rfl, rfl⟩ := List.cons.inj hrest
      exact ⟨['*', '/'], rest, rfl, rfl, h.next.next, rfl⟩
    · have hopen : ¬ (c = '*' ∧ text.head? = some '/') := by
        rwa [pair_prefix_iff, eq_comm] at hclose
      have hstep : normalizeStep false .block c text = (' ', .block) := by
        simp only [normalizeStep, if_neg hopen]
      have hnext := h.next
      rw [hstep] at hnext
      obtain ⟨body, rest, rfl, hbody, hclear, hrun⟩ := ih hnext
      refine ⟨c :: body, rest, rfl, ?_, hclear, ?_⟩
      · rw [List.cons_append, behindFirst, if_neg (by simpa using hclose), hbody]
      · rw [ModeMachine.run_cons, hstep, hrun]
        rfl

/-- The rest of a quote. -/
theorem ClearText.quote {q : Char} (hq : isQuote q = true) {text : Text} (h : ClearText engine (.quote q) text) :
    ∃ body rest, text = body ++ q :: rest ∧ rest.head? ≠ some q ∧ ¬ ['-', '-'] <:+: body ∧
      ¬ ['/', '*'] <:+: body ∧ ('\'' ∈ body → q = '\'') ∧
      (q = '\'' → ∀ more, more.head? ≠ some '\'' → behindString (body ++ '\'' :: more) = some more) ∧
        ClearText engine .code rest ∧ ModeMachine.run (normalizeStep false) (.quote q) text =
          blanks body ++ q :: ModeMachine.run (normalizeStep false) .code rest := by
  have hne {d : Char} (hd : isQuote d = false) : d ≠ q := by
    rintro rfl
    rw [hd] at hq
    exact absurd hq (by decide)
  induction hlength : text.length using Nat.strong_induction_on generalizing text with
  | _ n ih =>
    cases text with
    | nil => exact absurd h.ends (by simp [ModeMachine.final])
    | cons c text =>
      by_cases hc : c = q
      · subst hc
        by_cases hdouble : text.head? = some c
        · -- A doubled quote stays inside.
          obtain ⟨text, rfl⟩ : ∃ more, text = c :: more := by
            cases text with
            | nil => exact absurd hdouble (by simp)
            | cons d more => exact ⟨more, by simpa using hdouble⟩
          have hstep : normalizeStep false (.quote c) c (c :: text) = (' ', .skip (.quote c)) := by
            simp [normalizeStep]
          have hnext := h.next
          rw [hstep] at hnext
          obtain ⟨body, rest, rfl, hrest, hdashes, hblock, hmem, hbody, hclear, hrun⟩ :=
            ih text.length (by simp at hlength; omega) hnext.next rfl
          have hpair {a b : Char} (ha : isQuote a = false) (hpart : ¬ [a, b] <:+: body) :
              ¬ [a, b] <:+: c :: c :: body := by
            simp [List.infix_cons_iff, List.cons_prefix_cons, hne ha, hpart]
          refine ⟨c :: c :: body, rest, rfl, hrest, hpair (by decide) hdashes, hpair (by decide) hblock, ?_, ?_,
            hclear, ?_⟩
          · simp only [List.mem_cons]
            rintro (hself | hself | hin)
            · exact hself.symm
            · exact hself.symm
            · exact hmem hin
          · rintro rfl more hmore
            rw [List.cons_append, List.cons_append, behindString, hbody rfl more hmore]
            rfl
          · rw [ModeMachine.run_cons, hstep, ModeMachine.run_cons]
            exact congrArg (fun out ↦ ' ' :: ' ' :: out) hrun
        · have hstep : normalizeStep false (.quote c) c text = (c, .code) := by
            simp [normalizeStep, hdouble]
          have hnext := h.next
          rw [hstep] at hnext
          refine ⟨[], text, rfl, hdouble, by simp, by simp, by simp, ?_, hnext, ?_⟩
          · rintro rfl more hmore
            rw [List.nil_append, behindString]
            rintro rest rfl
            exact hmore rfl
          · rw [ModeMachine.run_cons, hstep]
            rfl
      · have hstep : normalizeStep false (.quote q) c text = (' ', .quote q) := by simp [normalizeStep, hc]
        have hnext := h.next
        rw [hstep] at hnext
        obtain ⟨-, hdash, hslash, hapostrophe⟩ := h.along.1
        obtain ⟨body, rest, rfl, hrest, hdashes, hblock, hmem, hbody, hclear, hrun⟩ :=
          ih text.length (by simp at hlength; omega) hnext rfl
        have hpair {a b : Char} (hstart : ¬ (c = a ∧ (body ++ q :: rest).head? = some b))
            (hpart : ¬ [a, b] <:+: body) : ¬ [a, b] <:+: c :: body := by
          rw [List.infix_cons_iff, not_or, pair_prefix_iff]
          refine ⟨fun hbegins ↦ hstart ⟨hbegins.1.symm, ?_⟩, hpart⟩
          rw [List.head?_append, hbegins.2]
          rfl
        refine ⟨c :: body, rest, rfl, hrest, hpair hdash hdashes, hpair hslash hblock, ?_, ?_, hclear, ?_⟩
        · rw [List.mem_cons]
          rintro (hself | hin)
          · exact hapostrophe hself.symm
          · exact hmem hin
        · rintro rfl more hmore
          rw [List.cons_append, behindString, hbody rfl more hmore]
          · exact fun _ hself ↦ absurd hself hc
          · exact hc
        · rw [ModeMachine.run_cons, hstep, hrun]
          rfl

/-- `scrub` keeps the code of a clear text. -/
theorem ClearText.scrubs {text : Text} (h : ClearText engine .code text) :
    ∃ scrubbed, Scrubs text (ModeMachine.run (normalizeStep false) .code text) scrubbed := by
  induction hlength : text.length using Nat.strong_induction_on generalizing text with
  | _ n ih =>
    cases text with
    | nil => exact ⟨[], .nil⟩
    | cons c text =>
      by_cases hdashes : ['-', '-'] <+: c :: text
      · obtain ⟨text, hrest⟩ := hdashes
        obtain ⟨rfl, rfl⟩ := List.cons.inj hrest
        obtain ⟨body, rest, rfl, hbody, hblock, hrest, hclear, hrun⟩ := h.next.next.line
        obtain ⟨scrubbed, hscrubs⟩ := ih rest.length (by simp at hlength; omega) hclear rfl
        have hline := Scrubs.line hbody hblock hrest hscrubs
        have hread : ModeMachine.run (normalizeStep false) .code (['-', '-'] ++ (body ++ rest)) =
            blanks (['-', '-'] ++ body) ++ ModeMachine.run (normalizeStep false) .code rest :=
          congrArg (fun out ↦ ' ' :: ' ' :: out) hrun
        rw [← hread] at hline
        exact ⟨' ' :: scrubbed, hline⟩
      by_cases hopen : ['/', '*'] <+: c :: text
      · obtain ⟨text, hrest⟩ := hopen
        obtain ⟨rfl, rfl⟩ := List.cons.inj hrest
        obtain ⟨body, rest, rfl, hbody, hclear, hrun⟩ := h.next.next.block
        obtain ⟨scrubbed, hscrubs⟩ := ih rest.length (by simp at hlength; omega) hclear rfl
        have hblock := Scrubs.block hbody hscrubs
        have hread : ModeMachine.run (normalizeStep false) .code (['/', '*'] ++ (body ++ rest)) =
            blanks (['/', '*'] ++ body) ++ ModeMachine.run (normalizeStep false) .code rest :=
          congrArg (fun out ↦ ' ' :: ' ' :: out) hrun
        rw [← hread] at hblock
        exact ⟨' ' :: scrubbed, hblock⟩
      have hline : ¬ (c = '-' ∧ text.head? = some '-') := by rwa [pair_prefix_iff, eq_comm] at hdashes
      have hblock : ¬ (c = '/' ∧ text.head? = some '*') := by rwa [pair_prefix_iff, eq_comm] at hopen
      have hstep : normalizeStep false .code c text = (c, if isQuote c then .quote c else .code) := by
        simp only [normalizeStep, if_neg hline, if_neg hblock]
        split_ifs <;> rfl
      have hnext := h.next
      rw [ModeMachine.run_cons, hstep]
      rw [hstep] at hnext
      cases hquote : isQuote c with
      | false =>
        rw [hquote] at hnext
        obtain ⟨scrubbed, hscrubs⟩ := ih text.length (by simp at hlength; omega) hnext rfl
        exact ⟨c :: scrubbed, .code hdashes hopen hquote hscrubs⟩
      | true =>
        rw [hquote] at hnext
        obtain ⟨body, rest, rfl, hrest, hnodashes, hnoblock, hmem, hbody, hclear, hrun⟩ := hnext.quote hquote
        obtain ⟨scrubbed, hscrubs⟩ := ih rest.length (by simp at hlength; omega) hclear rfl
        simp only [if_true, hrun]
        by_cases hc : c = '\''
        · subst hc
          exact ⟨_, .string (hbody rfl) hnodashes hnoblock hrest hscrubs⟩
        · refine ⟨_, .name hquote ?_ hnodashes hnoblock hscrubs⟩
          rw [List.mem_cons, not_or]
          exact ⟨Ne.symm hc, fun hin ↦ hc (hmem hin)⟩

/-- The engine reads a clear text as the gate does, under both conventions. -/
theorem ClearText.reading {text : Text} (h : ClearText engine .code text) (backslashEscapes : Bool) :
    engine.reading text = Gate.StmtClass.normalize text backslashEscapes := by
  have hsame (mode : Mode) (c : Char) (rest : Text) (hclear : Clear engine mode c rest) (escapes : Bool) :
      normalizeStep false mode c rest = normalizeStep escapes mode c rest := by
    cases mode with
    | quote q =>
      have hplain : ¬ c = '\\' := hclear.1
      simp [normalizeStep, hplain]
    | _ => rfl
  have hfamiliar (mode : Mode) (c : Char) (rest : Text) (hclear : Clear engine mode c rest) :
      Familiar engine mode c rest := by
    cases mode with
    | quote q => exact fun _ _ ↦ hclear.1
    | line => trivial
    | _ => exact hclear
  have hgate : ModeMachine.run (normalizeStep false) .code text =
      ModeMachine.run (normalizeStep backslashEscapes) .code text :=
    ModeMachine.run_eq_run_of_along (R := Eq)
      (fun mode place c rest hmode hclear ↦ by rw [← hmode, hsame mode c rest hclear]; exact ⟨rfl, rfl⟩) rfl
      h.along
  have hengine : ModeMachine.run (normalizeStep false) .code text =
      ModeMachine.run engine.readStep (.code false false) text := by
    refine ModeMachine.run_eq_run_of_along (R := SamePlace) (fun mode place c rest hplace hclear ↦ ?_)
      (.code false) h.along
    rw [hsame mode c rest hclear engine.backslashEscapes]
    exact normalizeStep_readStep engine hplace (hfamiliar mode c rest hclear)
  exact hengine.symm.trans hgate

/-! ## Words -/

section

variable {isPart : Char → Bool} {text read scrubbed : Text}

theorem takeWhile_blanks (hblank : isPart ' ' = false) (body : Text) (c : Char) (rest : Text) :
    (blanks (c :: body) ++ rest).takeWhile isPart = [] := by
  simp [blanks, List.replicate_succ, hblank]

theorem dropWhile_blanks (hblank : isPart ' ' = false) (body : Text) (c : Char) (rest : Text) :
    (blanks (c :: body) ++ rest).dropWhile isPart = blanks (c :: body) ++ rest := by
  simp [blanks, List.replicate_succ, hblank]

theorem runs_blanks (hblank : isPart ' ' = false) (body rest : Text) :
    runs isPart (blanks body ++ rest) = runs isPart rest :=
  runs_separators (fun _ hc ↦ List.eq_of_mem_replicate hc ▸ hblank) rest

/-- The words of the code are words of the scrubbed text. -/
theorem Scrubs.words (hblank : isPart ' ' = false) (hquotes : ∀ c, isQuote c = true → isPart c = false)
    (h : Scrubs text read scrubbed) : read.takeWhile isPart = scrubbed.takeWhile isPart ∧
      ∀ word ∈ runs isPart (read.dropWhile isPart), word ∈ runs isPart (scrubbed.dropWhile isPart) := by
  have hall {read scrubbed : Text} (htake : read.takeWhile isPart = scrubbed.takeWhile isPart)
      (hdrop : ∀ word ∈ runs isPart (read.dropWhile isPart), word ∈ runs isPart (scrubbed.dropWhile isPart)) :
      ∀ word ∈ runs isPart read, word ∈ runs isPart scrubbed := by
    intro word hword
    rw [runs_eq, List.mem_append] at hword ⊢
    rw [← htake]
    exact hword.imp_right (hdrop word)
  have hcomment (c : Char) (body : Text) {read scrubbed : Text}
      (ih : read.takeWhile isPart = scrubbed.takeWhile isPart ∧
        ∀ word ∈ runs isPart (read.dropWhile isPart), word ∈ runs isPart (scrubbed.dropWhile isPart)) :
      (blanks (c :: body) ++ read).takeWhile isPart = (' ' :: scrubbed).takeWhile isPart ∧
        ∀ word ∈ runs isPart ((blanks (c :: body) ++ read).dropWhile isPart),
          word ∈ runs isPart ((' ' :: scrubbed).dropWhile isPart) := by
    refine ⟨?_, fun word hword ↦ ?_⟩
    · rw [takeWhile_blanks hblank, List.takeWhile_cons_of_neg (by simp [hblank])]
    · rw [List.dropWhile_cons_of_neg (by simp [hblank]), runs_cons _ hblank]
      rw [dropWhile_blanks hblank, runs_blanks hblank] at hword
      exact hall ih.1 ih.2 word hword
  induction h with
  | nil => exact ⟨rfl, fun _ h ↦ h⟩
  | @code c rest read scrubbed hdashes hblock hquote h ih =>
    cases hc : isPart c with
    | true => simpa [hc] using ih
    | false =>
      refine ⟨by simp [hc], fun word hword ↦ ?_⟩
      rw [List.dropWhile_cons_of_neg (by simp [hc]), runs_cons _ hc] at hword ⊢
      exact hall ih.1 ih.2 word hword
  | @line body rest read scrubbed hbody hblock hrest h ih => exact hcomment '-' _ ih
  | @block body rest read scrubbed hbody h ih => exact hcomment '/' _ ih
  | @string body rest read scrubbed hbody hdashes hblock hrest h ih =>
    have hq : isPart '\'' = false := hquotes '\'' rfl
    refine ⟨by simp [hq], fun word hword ↦ ?_⟩
    rw [List.dropWhile_cons_of_neg (by simp [hq]), runs_cons _ hq] at hword ⊢
    rw [runs_blanks hblank, runs_cons _ hq] at hword
    rw [runs_cons _ hq]
    exact hall ih.1 ih.2 word hword
  | @name q body rest read scrubbed hq hbody hdashes hblock h ih =>
    have hq : isPart q = false := hquotes q hq
    refine ⟨by simp [hq], fun word hword ↦ ?_⟩
    rw [List.dropWhile_cons_of_neg (by simp [hq]), runs_cons _ hq] at hword ⊢
    rw [runs_blanks hblank, runs_cons _ hq] at hword
    rw [runs_append_cons _ _ hq, List.mem_append]
    exact .inr (hall ih.1 ih.2 word hword)

theorem Scrubs.runs_subset (hblank : isPart ' ' = false) (hquotes : ∀ c, isQuote c = true → isPart c = false)
    (h : Scrubs text read scrubbed) : ∀ word ∈ runs isPart read, word ∈ runs isPart scrubbed := by
  obtain ⟨htake, hdrop⟩ := h.words hblank hquotes
  intro word hword
  rw [runs_eq, List.mem_append] at hword ⊢
  rw [← htake]
  exact hword.imp_right (hdrop word)

theorem dropWhile_isJsSpace_blanks (body rest : Text) :
    (blanks body ++ rest).dropWhile isJsSpace = rest.dropWhile isJsSpace :=
  List.dropWhile_append_of_pos fun _ hc ↦ List.eq_of_mem_replicate hc ▸ (by decide)

/-- The code of the engine begins as the scrubbed text does. -/
theorem Scrubs.lead (hspace : ∀ c, isJsSpace c = true → isPart c = false)
    (hquotes : ∀ c, isQuote c = true → isPart c = false) (h : Scrubs text read scrubbed) :
    (read.dropWhile isJsSpace).takeWhile isPart = (scrubbed.dropWhile isJsSpace).takeWhile isPart := by
  have hquote {q : Char} (hq : isQuote q = true) (read : Text) :
      ((q :: read).dropWhile isJsSpace).takeWhile isPart = [] := by
    have hcode : isJsSpace q = false := by
      simp only [isQuote, Bool.or_eq_true, decide_eq_true_eq] at hq
      rcases hq with (rfl | rfl) | rfl <;> decide
    simp [hcode, hquotes q hq]
  induction h with
  | nil => rfl
  | @code c rest read scrubbed hdashes hblock hquote h ih =>
    cases hc : isJsSpace c with
    | true => simpa [hc] using ih
    | false =>
      have hwords := (Scrubs.code hdashes hblock hquote h).words (hspace ' ' (by decide)) hquotes
      rw [List.dropWhile_cons_of_neg (by simp [hc]), List.dropWhile_cons_of_neg (by simp [hc])]
      exact hwords.1
  | @line body rest read scrubbed hbody hblock hrest h ih =>
    rw [dropWhile_isJsSpace_blanks, List.dropWhile_cons_of_pos (by decide), ih]
  | @block body rest read scrubbed hbody h ih =>
    rw [dropWhile_isJsSpace_blanks, List.dropWhile_cons_of_pos (by decide), ih]
  | @string body rest read scrubbed hbody hdashes hblock hrest h ih => rw [hquote rfl, hquote rfl]
  | @name q body rest read scrubbed hq hbody hdashes hblock h ih => rw [hquote hq, hquote hq]

end

end Squaero.Front
