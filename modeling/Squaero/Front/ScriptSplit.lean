import Squaero.Front.RunScope
import Squaero.Gate.Engines

/-!
# Splitting as the engine does

One scanner stands for the lexical rules of five engines. `SplitsAsEngine` says that it cuts a script at the
semicolons of its engine and drops only what the engine would not run. The scanner and the engine read a
script side by side: where no position has a rule that only one of them knows, they stay together.
-/

namespace Squaero.Front

open Squaero.Lib Squaero.Gate
open ModeMachine (run runPrefix Along)

/-- The positions of the semicolons, the first character being at `i`. -/
def semicolons : ℕ → Text → List ℕ
  | _, [] => []
  | i, c :: rest => if c = ';' then i :: semicolons (i + 1) rest else semicolons (i + 1) rest

/-- What the engine reads of a statement. -/
def readOf (engine : Engine) (script : Text) (s : Statement) : Text :=
  ((engine.reading script).take s.stop).drop s.start

/-- Nothing is run: it is blank, or starts with a minus, as no statement does. -/
def RunsNothing (read : Text) : Prop :=
  (read.dropWhile isJsSpace).head?.all (· = '-') = true

/-- The statements are those of the engine, and only what runs nothing is dropped. -/
structure SplitsAsEngine (engine : Engine) (script : Text) : Prop where
  covers : Contiguous script 0 (splitStatements script engine.driver)
  cuts : (splitStatements script engine.driver).dropLast.map (·.stop) = semicolons 0 (engine.reading script)
  drops : ∀ s ∈ splitStatements script engine.driver, isCommentOnly (jsTrim s.text) engine.driver = true →
    RunsNothing (readOf engine script s)

/-! ## Side by side -/

/-- Quoted or commented alike, or code for both. -/
inductive SameState : SplitState → Engine.Place → Prop
  | normal (word : Bool) : SameState .normal (.code false word)
  | single : SameState .single (.quote '\'' false)
  | double : SameState .double (.quote '"' false)
  | back : SameState .back (.quote '`' false)
  | line : SameState .line (.line false)
  | block : SameState .block (.block 0 false)

def Scanner.opensDollar (m : Scanner) (rest : Text) : Bool :=
  !m.before.any isSplitWord && (dollarQuote rest).isSome

def opensDollar (engine : Engine) (place : Engine.Place) (rest : Text) : Bool :=
  engine = .postgres && place = .code false false && (Engine.dollarDelimiter rest).isSome

/-- In code, no rule that one of them does not know. -/
def KnownCode (engine : Engine) (m : Scanner) (place : Engine.Place) (c : Char) (rest : Text) : Prop :=
  (match engine with
    | .mysql => c ≠ '#' ∧ ¬ (c = '/' ∧ ['*', '!'].isPrefixOf rest) ∧
        (c = '-' ∧ rest.head? = some '-' → Engine.endsDashes (rest.drop 1).head?)
    | .postgres => c ≠ '`'
    | .sqlite => c ≠ '`'
    | .mssql => c ≠ '[' ∧ c ≠ '`'
    | .informix => c ≠ '{' ∧ c ≠ '`') ∧
    (c = '$' → m.opensDollar rest = opensDollar engine place rest) ∧
    (c = ';' → (m.routine.look m.head).inBody (engine = .informix) = false)

/-- At this position neither the scanner nor the engine has a rule of its own. -/
def Known (engine : Engine) (m : Scanner) (place : Engine.Place) (c : Char) (rest : Text) : Prop :=
  m.skip = 0 →
    match m.state with
    | .normal => KnownCode engine m place c rest
    | .single | .double => c = '\\' → engine = .mysql
    | .block => engine = .postgres → ¬ (c = '/' ∧ rest.head? = some '*')
    | .back | .line => True

/-- The scanner and the engine. -/
def sideBySide (engine : Engine) : ModeMachine.Step Char Unit (Scanner × Engine.Place) := fun both c rest ↦
  ((), (splitStep (engine = .informix) both.1 c rest).2, (engine.readStep both.2 c rest).2)

/-- Every position of the script is known. -/
def KnownScript (engine : Engine) (script : Text) : Prop :=
  Along (sideBySide engine) (fun both ↦ Known engine both.1 both.2) (.fresh, .code false false) script

/-- The engine comes to the state of the scanner with the characters that the scanner takes along. -/
structure Together (engine : Engine) (m : Scanner) (place : Engine.Place) (text : Text) : Prop where
  quiet : ∀ e ∈ (runPrefix engine.readStep place (text.take m.skip) (text.drop m.skip)).1, e ≠ ';'
  state : SameState m.state (runPrefix engine.readStep place (text.take m.skip) (text.drop m.skip)).2

theorem together_zero {engine : Engine} {m : Scanner} {place : Engine.Place} {text : Text}
    (hskip : m.skip = 0) (hstate : SameState m.state place) : Together engine m place text := by
  constructor
  · simp [hskip]
  · simpa [hskip] using hstate

/-- One more character that is taken along. -/
theorem together_one {engine : Engine} {m : Scanner} {place : Engine.Place} {c : Char} {text : Text}
    (hskip : m.skip = 1) (hemit : (engine.readStep place c text).1 ≠ ';')
    (hstate : SameState m.state (engine.readStep place c text).2) : Together engine m place (c :: text) := by
  constructor
  · simpa [hskip] using hemit
  · simpa [hskip] using hstate

theorem Together.next {engine : Engine} {m : Scanner} {place : Engine.Place} {c : Char} {rest : Text}
    (h : Together engine m place (c :: rest)) {skip : ℕ} (hskip : m.skip = skip + 1) :
    (engine.readStep place c rest).1 ≠ ';' ∧
      Together engine (m.go c m.state skip) (engine.readStep place c rest).2 rest := by
  obtain ⟨hquiet, hstate⟩ := h
  rw [hskip, List.take_succ_cons, List.drop_succ_cons, ModeMachine.runPrefix_cons, List.take_append_drop]
    at hquiet hstate
  rw [List.forall_mem_cons] at hquiet
  exact ⟨hquiet.1, hquiet.2, hstate⟩

/-! ## Dollar quotes -/

theorem isLetter_of_isRegexWord {c : Char} (h : Gate.SafeMode.isRegexWord c = true) :
    (Engine.isLetter c || c.isDigit) = true := by
  simp only [Gate.SafeMode.isRegexWord, Char.isAlphanum, Bool.or_eq_true, decide_eq_true_eq] at h
  simp only [Engine.isLetter, isWordChar, Bool.or_eq_true, decide_eq_true_eq]
  tauto

theorem takeWhile_dollar {p : Char → Bool} {tag more : Text} (htag : ∀ c ∈ tag, p c = true) (hp : p '$' = false) :
    (tag ++ '$' :: more).takeWhile p = tag := by
  rw [List.takeWhile_append_of_pos htag, List.takeWhile_cons_of_neg (by simp [hp]), List.append_nil]

/-- What the scanner takes for the start of a dollar quote is one. -/
theorem dollarDelimiter_of_dollarTag {rest tag : Text} (h : dollarTag rest = some tag) :
    Engine.dollarDelimiter rest = some tag ∧ ∃ inner more, tag = '$' :: (inner ++ ['$']) ∧
      rest = inner ++ '$' :: more := by
  unfold dollarTag at h
  dsimp only at h
  split_ifs at h with hopen
  rw [Bool.and_eq_true, decide_eq_true_eq] at hopen
  obtain rfl := Option.some.inj h
  generalize hinner : rest.takeWhile Gate.SafeMode.isRegexWord = inner at hopen ⊢
  have hletters : ∀ c ∈ inner, (Engine.isLetter c || c.isDigit) = true := by
    subst hinner
    exact fun c hc ↦ isLetter_of_isRegexWord (List.mem_takeWhile_imp hc)
  obtain ⟨more, hmore⟩ : ∃ more, rest.drop inner.length = '$' :: more := by
    cases hdrop : rest.drop inner.length with
    | nil => simp [hdrop] at hopen
    | cons d more => exact ⟨more, by simpa [hdrop] using hopen.2⟩
  have hrest : rest = inner ++ '$' :: more := by
    have htake : rest.take inner.length = inner := by
      have hprefix : inner <+: rest := hinner ▸ List.takeWhile_prefix _
      exact List.prefix_iff_eq_take.mp hprefix |>.symm
    rw [← hmore]
    conv_lhs => rw [← List.take_append_drop inner.length rest, htake]
  refine ⟨?_, inner, more, rfl, hrest⟩
  have hfirst : inner.head?.elim true Engine.isLetter = true := by
    cases inner with
    | nil => rfl
    | cons c inner =>
      have hc : isWordChar c = true := by simpa using hopen.1
      simp [Engine.isLetter, hc]
  have hword : (inner ++ '$' :: more).takeWhile (fun c ↦ Engine.isLetter c || c.isDigit) = inner :=
    takeWhile_dollar hletters (by decide)
  have hdrop : ((inner ++ '$' :: more).drop inner.length).head? = some '$' := by simp
  unfold Engine.dollarDelimiter
  rw [hrest, hword]
  simp only [hfirst, hdrop, decide_true, Bool.and_self, if_true]
  rfl

theorem runPrefix_skipMany (engine : Engine) (after : Engine.Place) (text tail : Text) :
    (∀ e ∈ (runPrefix engine.readStep (Engine.Place.skipMany text.length after) text tail).1, e ≠ ';') ∧
      (runPrefix engine.readStep (Engine.Place.skipMany text.length after) text tail).2 = after := by
  induction text with
  | nil => exact ⟨by simp, rfl⟩
  | cons c text ih =>
    refine ⟨?_, ih.2⟩
    rw [ModeMachine.runPrefix_cons, List.forall_mem_cons]
    exact ⟨by simp [Engine.Place.skipMany, Engine.readStep], ih.1⟩

/-- A dollar quote to its end. -/
theorem runPrefix_dollar (engine : Engine) {inner : Text} {text behind : Text}
    (h : behindFirst ('$' :: inner) text = some behind) :
    ∃ taken, text = taken ++ behind ∧
      (∀ e ∈ (runPrefix engine.readStep (.dollar ('$' :: inner)) taken behind).1, e ≠ ';') ∧
        (runPrefix engine.readStep (.dollar ('$' :: inner)) taken behind).2 = .code false false := by
  induction text with
  | nil => simp [behindFirst] at h
  | cons c text ih =>
    rw [behindFirst] at h
    split_ifs at h with hclose
    · obtain rfl := Option.some.inj h
      obtain ⟨more, hmore⟩ := List.isPrefixOf_iff_prefix.mp hclose
      have hdrop : (c :: text).drop ('$' :: inner).length = more := by rw [← hmore]; simp
      obtain ⟨rfl, rfl⟩ := List.cons.inj hmore
      rw [hdrop]
      obtain ⟨hquiet, hend⟩ := runPrefix_skipMany engine (.code false false) inner more
      have hstep : engine.readStep (.dollar ('$' :: inner)) '$' (inner ++ more) =
          ('$', Engine.Place.skipMany inner.length (.code false false)) := by
        simp [Engine.readStep]
      refine ⟨'$' :: inner, rfl, ?_, ?_⟩
      · rw [ModeMachine.runPrefix_cons, hstep, List.forall_mem_cons]
        exact ⟨(by decide : '$' ≠ ';'), hquiet⟩
      · rw [ModeMachine.runPrefix_cons, hstep]
        exact hend
    · obtain ⟨taken, rfl, hquiet, hend⟩ := ih h
      have hstep : engine.readStep (.dollar ('$' :: inner)) c (taken ++ behind) =
          (' ', .dollar ('$' :: inner)) := by
        simp only [Engine.readStep, if_neg hclose]
      refine ⟨c :: taken, rfl, ?_, ?_⟩
      · rw [ModeMachine.runPrefix_cons, hstep, List.forall_mem_cons]
        exact ⟨(by decide : ' ' ≠ ';'), hquiet⟩
      · rw [ModeMachine.runPrefix_cons, hstep]
        exact hend

/-! ## Code -/

/-- A character that begins nothing for either of them. -/
theorem readCode_plain {engine : Engine} {m : Scanner} {word : Bool} {c : Char} {rest : Text}
    (hknown : KnownCode engine m (.code false word) c rest) (hquote : c ≠ '\'' ∧ c ≠ '"' ∧ c ≠ '`')
    (hdash : ¬ (c = '-' ∧ rest.head? = some '-')) (hblock : ¬ (c = '/' ∧ rest.head? = some '*'))
    (hdollar : c = '$' → opensDollar engine (.code false word) rest = false) :
    ∃ after, engine.readCode false word c rest = (c, .code false after) := by
  have hline : ¬ (c = '-' ∧ rest.head? = some '-' ∧
      (engine = .mysql → Engine.endsDashes (rest.drop 1).head?)) := fun h ↦ hdash ⟨h.1, h.2.1⟩
  have hhash : ¬ (engine = .mysql ∧ c = '#') := by
    rintro ⟨rfl, rfl⟩
    exact hknown.1.1 rfl
  have hversion : ¬ (engine = .mysql ∧ c = '/' ∧ ['*', '!'].isPrefixOf rest) := by
    rintro ⟨rfl, h⟩
    exact hknown.1.2.1 h
  have hopen : ¬ ((false : Bool) = true ∧ c = '*' ∧ rest.head? = some '/') := by simp
  have hbrace : ¬ (engine = .informix ∧ c = '{') := by
    rintro ⟨rfl, rfl⟩
    exact hknown.1.1 rfl
  have hbracket : ¬ (engine = .mssql ∧ c = '[') := by
    rintro ⟨rfl, rfl⟩
    exact hknown.1.1 rfl
  have hquote' : ¬ engine.isQuote c = true := by
    obtain ⟨hsingle, hdouble, hback⟩ := hquote
    cases engine <;> simp [Engine.isQuote, hsingle, hdouble, hback]
  simp only [Engine.readCode, if_neg hline, if_neg hhash, if_neg hversion, if_neg hopen, if_neg hblock,
    if_neg hbrace, if_neg hbracket, if_neg hquote']
  split
  next h =>
    obtain ⟨rfl, rfl, hword⟩ := h
    have hnone := hdollar rfl
    have hcode : word = false := by simpa using hword
    cases hdelimiter : Engine.dollarDelimiter rest with
    | none => exact ⟨_, rfl⟩
    | some d => simp [opensDollar, hcode, hdelimiter] at hnone
  next => exact ⟨_, rfl⟩

/-- Letters, digits and underscores. -/
theorem readCode_regexWord {engine : Engine} {word : Bool} {c : Char} {rest : Text}
    (hc : Gate.SafeMode.isRegexWord c = true) :
    ∃ after, engine.readCode false word c rest = (c, .code false after) := by
  have hne {d : Char} (hd : Gate.SafeMode.isRegexWord d = false) : c ≠ d := by
    rintro rfl
    rw [hd] at hc
    exact absurd hc (by decide)
  have hquote : ¬ engine.isQuote c = true := by
    cases engine <;>
      simp [Engine.isQuote, hne (d := '\'') (by decide), hne (d := '"') (by decide), hne (d := '`') (by decide)]
  simp only [Engine.readCode, hne (d := '-') (by decide), hne (d := '#') (by decide),
    hne (d := '/') (by decide), hne (d := '{') (by decide), hne (d := '[') (by decide),
    hne (d := '$') (by decide), false_and, and_false, if_false, if_neg hquote, Bool.false_eq_true]
  exact ⟨_, rfl⟩

theorem runPrefix_word (engine : Engine) (word : Bool) {text : Text}
    (h : ∀ c ∈ text, Gate.SafeMode.isRegexWord c = true) (tail : Text) :
    (∀ e ∈ (runPrefix engine.readStep (.code false word) text tail).1, e ≠ ';') ∧
      ∃ after, (runPrefix engine.readStep (.code false word) text tail).2 = .code false after := by
  induction text generalizing word with
  | nil => exact ⟨by simp, word, rfl⟩
  | cons c text ih =>
    rw [List.forall_mem_cons] at h
    obtain ⟨after, hstep⟩ : ∃ after, engine.readStep (.code false word) c (text ++ tail) = (c, .code false after) :=
      readCode_regexWord h.1
    obtain ⟨hquiet, hend⟩ := ih after h.2
    rw [ModeMachine.runPrefix_cons, hstep]
    refine ⟨?_, hend⟩
    rw [List.forall_mem_cons]
    refine ⟨?_, hquiet⟩
    rintro rfl
    exact absurd h.1 (by decide)

/-- At a dollar quote of the engine that the scanner knows as well. -/
theorem together_dollar {engine : Engine} {m : Scanner} {word : Bool} {rest : Text} {length : ℕ}
    (hquote : dollarQuote rest = some length) (hopens : opensDollar engine (.code false word) rest = true) :
    false = decide ((engine.readCode false word '$' rest).1 = ';') ∧
      Together engine (m.go '$' .normal ((some length).getD 0)) (engine.readCode false word '$' rest).2 rest := by
  simp only [opensDollar, Bool.and_eq_true, decide_eq_true_eq, Engine.Place.code.injEq, true_and] at hopens
  obtain ⟨⟨rfl, rfl⟩, -⟩ := hopens
  obtain ⟨tag, htag, hlength⟩ := Option.bind_eq_some_iff.mp hquote
  obtain ⟨behind, hbehind, rfl⟩ := Option.map_eq_some_iff.mp hlength
  obtain ⟨hdelimiter, inner, more, rfl, rfl⟩ := dollarDelimiter_of_dollarTag htag
  have hread : Engine.readCode .postgres false false '$' (inner ++ '$' :: more) =
      ('$', Engine.Place.skipMany (inner ++ ['$']).length (.dollar ('$' :: (inner ++ ['$'])))) := by
    simp [Engine.readCode, Engine.isQuote, hdelimiter]
  have hdrop : (inner ++ '$' :: more).drop (('$' :: (inner ++ ['$'])).length - 1) = more := by
    have hsplit : inner ++ '$' :: more = (inner ++ ['$']) ++ more := by simp
    rw [List.length_cons, Nat.add_sub_cancel, hsplit, List.drop_left]
  rw [hdrop] at hbehind
  obtain ⟨taken, rfl, hquiet, hend⟩ := runPrefix_dollar .postgres hbehind
  obtain ⟨hopening, hafter⟩ := runPrefix_skipMany .postgres (.dollar ('$' :: (inner ++ ['$'])))
    (inner ++ ['$']) (taken ++ behind)
  have hrest : inner ++ '$' :: (taken ++ behind) = ((inner ++ ['$']) ++ taken) ++ behind := by simp
  rw [hread, hrest]
  generalize inner ++ ['$'] = opening at hopening hafter hquiet hend
  have hcount : ((opening ++ taken) ++ behind).length - behind.length = (opening ++ taken).length := by
    rw [List.length_append, Nat.add_sub_cancel]
  refine ⟨rfl, ?_, ?_⟩
  · simp only [Scanner.go, Option.getD_some, hcount, List.take_left, List.drop_left, ModeMachine.runPrefix_append,
      hafter, List.forall_mem_append]
    exact ⟨hopening, hquiet⟩
  · simp only [Scanner.go, Option.getD_some, hcount, List.take_left, List.drop_left, ModeMachine.runPrefix_append,
      hafter, hend]
    exact .normal false

/-- In code the two stay together. -/
theorem together_normal {engine : Engine} {m : Scanner} {word : Bool} {c : Char} {rest : Text}
    (hknown : KnownCode engine m (.code false word) c rest) :
    (splitNormal (engine = .informix) m c rest).1 = decide ((engine.readCode false word c rest).1 = ';') ∧
      Together engine (splitNormal (engine = .informix) m c rest).2 (engine.readCode false word c rest).2 rest := by
  unfold splitNormal
  by_cases hsingle : c = '\''
  · subst hsingle
    have hread : engine.readCode false word '\'' rest = ('\'', .quote '\'' false) := by
      cases engine <;> simp [Engine.readCode, Engine.isQuote]
    rw [if_pos rfl, hread]
    exact ⟨rfl, together_zero rfl .single⟩
  by_cases hdouble : c = '"'
  · subst hdouble
    have hread : engine.readCode false word '"' rest = ('"', .quote '"' false) := by
      cases engine <;> simp [Engine.readCode, Engine.isQuote]
    rw [if_neg hsingle, if_pos rfl, hread]
    exact ⟨rfl, together_zero rfl .double⟩
  by_cases hback : c = '`'
  · subst hback
    have hread : engine.readCode false word '`' rest = ('`', .quote '`' false) := by
      cases engine with
      | mysql => simp [Engine.readCode, Engine.isQuote]
      | postgres => exact absurd rfl hknown.1
      | sqlite => exact absurd rfl hknown.1
      | mssql => exact absurd rfl hknown.1.2
      | informix => exact absurd rfl hknown.1.2
    rw [if_neg hsingle, if_neg hdouble, if_pos rfl, hread]
    exact ⟨rfl, together_zero rfl .back⟩
  rw [if_neg hsingle, if_neg hdouble, if_neg hback]
  by_cases hdash : c = '-' ∧ rest.head? = some '-'
  · obtain ⟨rfl, hhead⟩ := hdash
    obtain ⟨rest, rfl⟩ : ∃ more, rest = '-' :: more := by
      cases rest with
      | nil => exact absurd hhead nofun
      | cons d more => exact ⟨more, by simpa using hhead⟩
    have hends : engine = .mysql → Engine.endsDashes (('-' :: rest).drop 1).head? = true := by
      rintro rfl
      exact hknown.1.2.2 ⟨rfl, rfl⟩
    have hread : engine.readCode false word '-' ('-' :: rest) = (' ', .line false) := by
      rw [Engine.readCode, if_pos ⟨rfl, rfl, hends⟩]
    rw [if_pos ⟨rfl, rfl⟩, hread]
    exact ⟨rfl, together_one rfl (by simp [Engine.readStep]) (by simpa [Engine.readStep] using .line)⟩
  rw [if_neg hdash]
  by_cases hblock : c = '/' ∧ rest.head? = some '*'
  · obtain ⟨rfl, hhead⟩ := hblock
    obtain ⟨rest, rfl⟩ : ∃ more, rest = '*' :: more := by
      cases rest with
      | nil => exact absurd hhead nofun
      | cons d more => exact ⟨more, by simpa using hhead⟩
    have hversion : ¬ (engine = .mysql ∧ '/' = '/' ∧ ['*', '!'].isPrefixOf ('*' :: rest)) := by
      rintro ⟨rfl, h⟩
      exact hknown.1.2.1 h
    have hread : engine.readCode false word '/' ('*' :: rest) = (' ', .skip (.block 0 false)) := by
      rw [Engine.readCode, if_neg (by simp), if_neg (by simp), if_neg hversion, if_neg (by simp),
        if_pos ⟨rfl, rfl⟩]
    rw [if_pos ⟨rfl, rfl⟩, hread]
    exact ⟨rfl, together_one rfl (by simp [Engine.readStep]) .block⟩
  rw [if_neg hblock]
  have hplain (hdollar : c = '$' → opensDollar engine (.code false word) rest = false) :=
    readCode_plain hknown ⟨hsingle, hdouble, hback⟩ hdash hblock hdollar
  have hdollar := hknown.2.1
  unfold Scanner.opensDollar at hdollar
  by_cases hopen : c = '$' ∧ (!m.before.any isSplitWord) = true
  · obtain ⟨rfl, hbefore⟩ := hopen
    rw [hbefore, Bool.true_and] at hdollar
    rw [if_pos ⟨rfl, hbefore⟩]
    cases hquote : dollarQuote rest with
    | none =>
      obtain ⟨after, hread⟩ := hplain fun _ ↦ by rw [← hdollar rfl, hquote]; rfl
      rw [hread]
      exact ⟨rfl, together_zero rfl (.normal after)⟩
    | some length => exact together_dollar hquote (by rw [← hdollar rfl, hquote]; rfl)
  rw [if_neg hopen]
  have hclosed : c = '$' → opensDollar engine (.code false word) rest = false := by
    intro hc
    have hword : (!m.before.any isSplitWord) = false := by simpa [hc] using hopen
    rw [← hdollar hc, hword, Bool.false_and]
  obtain ⟨after, hread⟩ := hplain hclosed
  rw [hread]
  have hgo (next : Scanner) (hne : c ≠ ';') (hnext : next.skip = 0) (hstate : next.state = .normal) :
      false = decide (c = ';') ∧ Together engine next (.code false after) rest :=
    ⟨by simp [hne], together_zero hnext (hstate ▸ .normal after)⟩
  by_cases hletter : c.isAlpha ∧ (!m.before.any isSplitWord) = true
  · have hne : c ≠ ';' := by
      rintro rfl
      exact absurd hletter.1 (by decide)
    have hsplit := List.takeWhile_append_dropWhile (p := Gate.SafeMode.isRegexWord) (l := rest)
    obtain ⟨hquiet, last, hend⟩ := runPrefix_word engine after
      (fun d hd ↦ List.mem_takeWhile_imp hd : ∀ d ∈ rest.takeWhile Gate.SafeMode.isRegexWord, _)
      (rest.dropWhile Gate.SafeMode.isRegexWord)
    have htake : rest.take (rest.takeWhile Gate.SafeMode.isRegexWord).length =
        rest.takeWhile Gate.SafeMode.isRegexWord :=
      (List.prefix_iff_eq_take.mp (List.takeWhile_prefix _)).symm
    have hdrop : rest.drop (rest.takeWhile Gate.SafeMode.isRegexWord).length =
        rest.dropWhile Gate.SafeMode.isRegexWord := by
      have hall := List.take_append_drop (rest.takeWhile Gate.SafeMode.isRegexWord).length rest
      rw [htake] at hall
      exact List.append_cancel_left (hall.trans hsplit.symm)
    rw [if_pos hletter]
    refine ⟨by simp [hne], ?_, ?_⟩
    · simpa [Scanner.go, htake, hdrop] using hquiet
    · simp only [Scanner.go, List.length_cons, Nat.add_sub_cancel, htake, hdrop, hend]
      exact .normal last
  rw [if_neg hletter]
  by_cases hsemicolon : c = ';'
  · subst hsemicolon
    rw [if_pos rfl, if_neg (by simpa using hknown.2.2 rfl)]
    exact ⟨rfl, together_zero rfl (.normal after)⟩
  rw [if_neg hsemicolon]
  exact hgo _ hsemicolon rfl rfl

/-- In a quote the two stay together. -/
theorem together_quoted {engine : Engine} {m : Scanner} {q c : Char} {escapes : Bool} {rest : Text}
    (hstate : SameState m.state (.quote q false)) (hq : q ≠ ';' ∧ q ≠ '\\')
    (hescapes : (escapes ∧ c = '\\') ↔ (engine = .mysql ∧ q ≠ '`' ∧ c = '\\')) :
    (splitQuoted q escapes m c rest).1 = decide ((engine.readStep (.quote q false) c rest).1 = ';') ∧
      Together engine (splitQuoted q escapes m c rest).2 (engine.readStep (.quote q false) c rest).2 rest := by
  have hskipped (d : Char) (text : Text) : (engine.readStep (.skip (.quote q false)) d text) =
      (' ', .quote q false) := rfl
  unfold splitQuoted
  by_cases hescape : escapes ∧ c = '\\'
  · obtain ⟨hengine, hback, rfl⟩ := hescapes.mp hescape
    rw [if_pos hescape]
    cases rest with
    | nil =>
      have hne : ¬ '\\' = q := Ne.symm hq.2
      have hread : engine.readStep (.quote q false) '\\' [] = (' ', .quote q false) := by
        simp [Engine.readStep, hne]
      rw [hread]
      exact ⟨rfl, ⟨by simp, by simpa [Scanner.go] using hstate⟩⟩
    | cons d rest =>
      have hread : engine.readStep (.quote q false) '\\' (d :: rest) = (' ', .skip (.quote q false)) := by
        simp [Engine.readStep, hengine, hback]
      rw [hread]
      exact ⟨rfl, together_one rfl (by rw [hskipped]; exact (by decide : ' ' ≠ ';')) (by rw [hskipped]; exact hstate)⟩
  · have hplain : ¬ (engine = .mysql ∧ q ≠ '`' ∧ c = '\\' ∧ rest ≠ []) :=
      fun h ↦ hescape (hescapes.mpr ⟨h.1, h.2.1, h.2.2.1⟩)
    rw [if_neg hescape]
    by_cases hc : c = q
    · subst hc
      rw [if_pos rfl]
      by_cases hdouble : rest.head? = some c
      · obtain ⟨rest, rfl⟩ : ∃ more, rest = c :: more := by
          cases rest with
          | nil => exact absurd hdouble nofun
          | cons d more => exact ⟨more, by simpa using hdouble⟩
        have hread : engine.readStep (.quote c false) c (c :: rest) = (' ', .skip (.quote c false)) := by
          simp only [Engine.readStep, if_neg hplain]
          simp
        rw [if_pos hdouble, hread]
        exact ⟨rfl, together_one rfl (by rw [hskipped]; exact (by decide : ' ' ≠ ';')) (by rw [hskipped]; exact hstate)⟩
      · have hread : engine.readStep (.quote c false) c rest = (c, .code false false) := by
          simp only [Engine.readStep, if_neg hplain, if_neg hdouble, if_true]
        rw [if_neg hdouble, hread]
        exact ⟨by simp [hq.1], together_zero rfl (.normal false)⟩
    · have hread : engine.readStep (.quote q false) c rest = (' ', .quote q false) := by
        simp only [Engine.readStep, if_neg hplain, if_neg hc]
      rw [if_neg hc, hread]
      exact ⟨rfl, together_zero rfl hstate⟩

/-- At a known position the two cut or do not cut alike, and stay together. -/
theorem together_step {engine : Engine} {m : Scanner} {place : Engine.Place} {c : Char} {rest : Text}
    (h : Together engine m place (c :: rest)) (hknown : Known engine m place c rest) :
    (splitStep (engine = .informix) m c rest).1 = decide ((engine.readStep place c rest).1 = ';') ∧
      Together engine (splitStep (engine = .informix) m c rest).2 (engine.readStep place c rest).2 rest := by
  cases hskip : m.skip with
  | succ skip =>
    obtain ⟨hemit, hnext⟩ := h.next hskip
    simp only [splitStep, hskip]
    exact ⟨by simp [hemit], hnext⟩
  | zero =>
    have hstate : SameState m.state place := by simpa [hskip] using h.state
    have hpoint := hknown hskip
    simp only [splitStep, hskip]
    generalize hsource : m.state = state at hstate hpoint ⊢
    cases hstate with
    | normal word => exact together_normal hpoint
    | single =>
      refine together_quoted (by rw [hsource]; exact .single) (by decide) ?_
      exact ⟨fun hc ↦ ⟨hpoint hc.2, by decide, hc.2⟩, fun hc ↦ ⟨rfl, hc.2.2⟩⟩
    | double =>
      refine together_quoted (by rw [hsource]; exact .double) (by decide) ?_
      exact ⟨fun hc ↦ ⟨hpoint hc.2, by decide, hc.2⟩, fun hc ↦ ⟨rfl, hc.2.2⟩⟩
    | back =>
      refine together_quoted (by rw [hsource]; exact .back) (by decide) ?_
      exact ⟨fun hc ↦ absurd hc.1 (by decide), fun hc ↦ absurd rfl hc.2.1⟩
    | line =>
      by_cases hc : c = '\n'
      · subst hc
        exact ⟨rfl, together_zero rfl (.normal false)⟩
      · have hread : engine.readStep (.line false) c rest = (' ', .line false) := by
          simp [Engine.readStep, hc]
        rw [hread]
        exact ⟨rfl, together_zero rfl (by simpa [Scanner.go, hc] using .line)⟩
    | block =>
      unfold splitBlock
      by_cases hclose : c = '*' ∧ rest.head? = some '/'
      · obtain ⟨rfl, hhead⟩ := hclose
        obtain ⟨rest, rfl⟩ : ∃ more, rest = '/' :: more := by
          cases rest with
          | nil => exact absurd hhead nofun
          | cons d more => exact ⟨more, by simpa using hhead⟩
        rw [if_pos (⟨rfl, rfl⟩ : '*' = '*' ∧ ('/' :: rest).head? = some '/')]
        exact ⟨by simp [Engine.readStep], together_one rfl (by simp [Engine.readStep])
          (by simpa [Engine.readStep] using .normal false)⟩
      · have hnested : ¬ (engine = .postgres ∧ c = '/' ∧ rest.head? = some '*') :=
          fun hopen ↦ hpoint hopen.1 hopen.2
        have hread : engine.readStep (.block 0 false) c rest = (' ', .block 0 false) := by
          simp only [Engine.readStep, if_neg hclose, if_neg hnested]
        rw [if_neg hclose, hread]
        exact ⟨rfl, together_zero rfl .block⟩

theorem together_run {engine : Engine} {m : Scanner} {place : Engine.Place} {text : Text}
    (h : Together engine m place text)
    (hknown : Along (sideBySide engine) (fun both ↦ Known engine both.1 both.2) (m, place) text) :
    run (splitStep (engine = .informix)) m text = (run engine.readStep place text).map fun e ↦ decide (e = ';') := by
  induction text generalizing m place with
  | nil => rfl
  | cons c rest ih =>
    obtain ⟨hcut, hnext⟩ := together_step h hknown.1
    rw [ModeMachine.run_cons, ModeMachine.run_cons, List.map_cons, hcut, ih hnext hknown.2]

/-! ## Cuts -/

def marked : ℕ → List Bool → List ℕ
  | _, [] => []
  | i, mark :: rest => if mark then i :: marked (i + 1) rest else marked (i + 1) rest

theorem semicolons_eq (i : ℕ) (text : Text) : semicolons i text = marked i (text.map fun e ↦ decide (e = ';')) := by
  induction text generalizing i with
  | nil => rfl
  | cons c rest ih => simp [semicolons, marked, ih]

theorem splitFrom_ne_nil (informix : Bool) (m : Scanner) (start i : ℕ) (text : Text) :
    splitFrom informix m start i text ≠ [] := by
  induction text generalizing m start i with
  | nil => simp [splitFrom]
  | cons c rest ih =>
    rw [splitFrom]
    split
    · simp
    · exact ih _ _ _

theorem stops_splitFrom (informix : Bool) (m : Scanner) (start i : ℕ) (text : Text) :
    (splitFrom informix m start i text).dropLast.map (·.stop) = marked i (run (splitStep informix) m text) := by
  induction text generalizing m start i with
  | nil => rfl
  | cons c rest ih =>
    rw [ModeMachine.run_cons, splitFrom]
    generalize splitStep informix m c rest = result
    obtain ⟨cut, next⟩ := result
    cases cut with
    | false => exact ih next start (i + 1)
    | true =>
      have hmore := ih next (i + 1) (i + 1)
      rw [List.dropLast_cons_of_ne_nil (splitFrom_ne_nil _ _ _ _ _), List.map_cons, hmore]
      rfl

theorem cuts_of_known {engine : Engine} {script : Text} (h : KnownScript engine script) :
    (splitStatements script engine.driver).dropLast.map (·.stop) = semicolons 0 (engine.reading script) := by
  have hfamily : decide (engineFamily engine.driver = "informix".toList) = decide (engine = .informix) := by
    cases engine <;> decide
  have htogether : Together engine .fresh (.code false false) script := together_zero rfl (.normal false)
  unfold splitStatements
  rw [hfamily, stops_splitFrom, semicolons_eq, together_run htogether h]
  rfl

/-! ## Comments -/

/-- Blanks and comments, as `isCommentOnly` finds them. -/
inductive OnlyComments (engine : Engine) : Text → Prop
  | nil : OnlyComments engine []
  | space {c : Char} {rest : Text} (hc : isJsSpace c = true) (h : OnlyComments engine rest) :
      OnlyComments engine (c :: rest)
  | line {opening body rest : Text} (hopening : opening = ['-', '-'] ∨ engine = .mysql ∧ opening = ['#'])
      (hbody : '\n' ∉ body) (hrest : rest = [] ∨ ∃ more, rest = '\n' :: more) (h : OnlyComments engine rest) :
      OnlyComments engine (opening ++ (body ++ rest))
  | brace {rest more : Text} (hengine : engine = .informix) (hbody : behindFirst ['}'] rest = some more)
      (h : OnlyComments engine more) : OnlyComments engine ('{' :: rest)
  | block {rest more : Text} (hbody : behindFirst ['*', '/'] rest = some more) (h : OnlyComments engine more) :
      OnlyComments engine ('/' :: '*' :: rest)

theorem onlyComments_spaces {engine : Engine} {text : Text} (h : ∀ c ∈ text, isJsSpace c = true) :
    OnlyComments engine text := by
  induction text with
  | nil => exact .nil
  | cons c text ih =>
    rw [List.forall_mem_cons] at h
    exact .space h.1 (ih h.2)

theorem OnlyComments.append_spaces {engine : Engine} {text : Text} (h : OnlyComments engine text) {spaces : Text}
    (hspaces : ∀ c ∈ spaces, isJsSpace c = true) : OnlyComments engine (text ++ spaces) := by
  induction h with
  | nil => exact onlyComments_spaces hspaces
  | space hc h ih => exact .space hc ih
  | @line opening body rest hopening hbody hrest h ih =>
    rcases hrest with rfl | ⟨more, rfl⟩
    · have hsplit := List.takeWhile_append_dropWhile (p := (· ≠ '\n')) (l := spaces)
      have hall : opening ++ (body ++ []) ++ spaces =
          opening ++ ((body ++ spaces.takeWhile (· ≠ '\n')) ++ spaces.dropWhile (· ≠ '\n')) := by
        rw [List.append_nil, List.append_assoc body, hsplit, List.append_assoc]
      rw [hall]
      refine .line hopening ?_ ?_ ?_
      · rw [List.mem_append, not_or]
        exact ⟨hbody, fun hmem ↦ by simpa using List.mem_takeWhile_imp hmem⟩
      · cases hdrop : spaces.dropWhile (· ≠ '\n') with
        | nil => exact .inl rfl
        | cons c more =>
          have hhead := List.head?_dropWhile_not (· ≠ '\n') spaces
          rw [hdrop] at hhead
          obtain rfl : c = '\n' := by simpa using hhead
          exact .inr ⟨more, rfl⟩
      · exact onlyComments_spaces fun c hc ↦ hspaces c ((List.dropWhile_sublist _).subset hc)
    · rw [List.append_assoc, List.append_assoc]
      exact .line hopening hbody (.inr ⟨more ++ spaces, rfl⟩) ih
  | brace hengine hbody h ih => exact .brace hengine (behindFirst_append hbody spaces (by simp)) ih
  | block hbody h ih => exact .block (behindFirst_append hbody spaces (by simp)) ih

theorem OnlyComments.spaces_append {engine : Engine} {text : Text} (h : OnlyComments engine text) {spaces : Text}
    (hspaces : ∀ c ∈ spaces, isJsSpace c = true) : OnlyComments engine (spaces ++ text) := by
  induction spaces with
  | nil => exact h
  | cons c spaces ih =>
    rw [List.forall_mem_cons] at hspaces
    exact .space hspaces.1 (ih hspaces.2)

theorem commentPattern_driver (engine : Engine) (text : Text) :
    commentPattern engine.driver text = (lineComment ['-', '-'] text).or
      ((if engine = .mysql then lineComment ['#'] text else if engine = .informix then braceComment text else none).or
        (blockComment text)) := by
  cases engine <;> rfl

/-- What matches the pattern is a comment. -/
theorem comment_of_match {engine : Engine} {text behind : Text}
    (h : commentPattern engine.driver text = some behind) :
    (∃ matched, text = matched ++ behind ∧ matched ≠ []) ∧
      (OnlyComments engine behind → OnlyComments engine text) := by
  have hline {opening : Text} (hopening : opening = ['-', '-'] ∨ engine = .mysql ∧ opening = ['#'])
      (hmatch : lineComment opening text = some behind) :
      (∃ matched, text = matched ++ behind ∧ matched ≠ []) ∧
        (OnlyComments engine behind → OnlyComments engine text) := by
    obtain ⟨body, rfl, hbody, hrest⟩ := eq_append_of_lineComment hmatch
    refine ⟨⟨opening ++ body, by rw [List.append_assoc], ?_⟩, .line hopening hbody hrest⟩
    rcases hopening with rfl | ⟨-, rfl⟩ <;> simp
  rw [commentPattern_driver, Option.or_eq_some_iff, Option.or_eq_some_iff] at h
  rcases h with hdashes | ⟨-, hother | ⟨-, hblock⟩⟩
  · exact hline (.inl rfl) hdashes
  · split_ifs at hother with hmysql hinformix
    · exact hline (.inr ⟨hmysql, rfl⟩) hother
    · unfold braceComment at hother
      split at hother
      next rest =>
        obtain ⟨body, hrest, -⟩ := eq_append_of_behindFirst hother
        exact ⟨⟨'{' :: body, by rw [hrest]; rfl, by simp⟩, .brace hinformix hother⟩
      next => exact absurd hother nofun
  · unfold blockComment at hblock
    split at hblock
    next rest =>
      obtain ⟨body, hrest, -⟩ := eq_append_of_behindFirst hblock
      exact ⟨⟨'/' :: '*' :: body, by rw [hrest]; rfl, by simp⟩, .block hblock⟩
    next => exact absurd hblock nofun

theorem onlyComments_of_replaceAll {engine : Engine} {text : Text}
    (h : ∀ c ∈ replaceAll (commentPattern engine.driver) [] text, isJsSpace c = true) :
    OnlyComments engine text := by
  induction hlength : text.length using Nat.strong_induction_on generalizing text with
  | _ n ih =>
    cases text with
    | nil => exact .nil
    | cons c text =>
      cases hmatch : commentPattern engine.driver (c :: text) with
      | none =>
        rw [replaceAll_cons hmatch, List.forall_mem_cons] at h
        exact .space h.1 (ih text.length (by simp at hlength; omega) h.2 rfl)
      | some behind =>
        obtain ⟨⟨matched, hsplit, hne⟩, hcomment⟩ := comment_of_match hmatch
        rw [hsplit, replaceAll_match hne (hsplit ▸ hmatch), List.nil_append] at h
        have hshort : behind.length < n := by
          have hpos := List.length_pos_iff.mpr hne
          rw [← hlength, hsplit, List.length_append]
          omega
        exact hcomment (ih behind.length hshort h rfl)

theorem jsTrim_eq_nil_iff {text : Text} : jsTrim text = [] ↔ ∀ c ∈ text, isJsSpace c = true := by
  unfold jsTrim jsTrimEnd jsTrimStart
  rw [List.rdropWhile_eq_nil_iff]
  constructor
  · intro h c hc
    by_contra hspace
    rw [← List.takeWhile_append_dropWhile (p := isJsSpace) (l := text), List.mem_append] at hc
    rcases hc with hc | hc
    · exact hspace (List.mem_takeWhile_imp hc)
    · exact hspace (h c hc)
  · exact fun h c hc ↦ h c ((List.dropWhile_sublist _).subset hc)

theorem onlyComments_of_isCommentOnly {engine : Engine} {text : Text}
    (h : isCommentOnly (jsTrim text) engine.driver = true) : OnlyComments engine text := by
  have hcore : OnlyComments engine (jsTrim text) :=
    onlyComments_of_replaceAll (jsTrim_eq_nil_iff.mp (by simpa [isCommentOnly] using h))
  have hback := hcore.append_spaces
    (fun c hc ↦ List.mem_rtakeWhile_imp hc : ∀ c ∈ (jsTrimStart text).rtakeWhile isJsSpace, isJsSpace c = true)
  rw [jsTrim, jsTrimEnd, List.rdropWhile_append_rtakeWhile] at hback
  have hfront := hback.spaces_append
    (fun c hc ↦ List.mem_takeWhile_imp hc : ∀ c ∈ text.takeWhile isJsSpace, isJsSpace c = true)
  rwa [jsTrimStart, List.takeWhile_append_dropWhile] at hfront

/-! ## Dropped statements -/

/-- Known positions from a place on. -/
abbrev KnownFrom (engine : Engine) (m : Scanner) (place : Engine.Place) (text : Text) : Prop :=
  Along (sideBySide engine) (fun both ↦ Known engine both.1 both.2) (m, place) text

theorem KnownFrom.next {engine : Engine} {m next : Scanner} {place after : Engine.Place} {c e : Char} {cut : Bool}
    {rest : Text} (h : KnownFrom engine m place (c :: rest))
    (hsplit : splitStep (engine = .informix) m c rest = (cut, next))
    (hread : engine.readStep place c rest = (e, after)) : KnownFrom engine next after rest := by
  have hnext := h.2
  simp only [sideBySide, hsplit, hread] at hnext
  exact hnext

theorem blank_line {engine : Engine} {m : Scanner} {body tail : Text} (hbody : '\n' ∉ body)
    (hstate : m.state = .line) (hskip : m.skip = 0) (h : KnownFrom engine m (.line false) (body ++ tail)) :
    (∀ e ∈ (runPrefix engine.readStep (.line false) body tail).1, isJsSpace e = true) ∧
      (runPrefix engine.readStep (.line false) body tail).2 = .line false ∧
        ∃ last : Scanner, last.state = .line ∧ last.skip = 0 ∧ KnownFrom engine last (.line false) tail := by
  induction body generalizing m with
  | nil => exact ⟨by simp, rfl, m, hstate, hskip, h⟩
  | cons c body ih =>
    rw [List.mem_cons, not_or] at hbody
    have hc : ¬ c = '\n' := fun heq ↦ hbody.1 heq.symm
    have hread (rest : Text) : engine.readStep (.line false) c rest = (' ', .line false) := by
      simp [Engine.readStep, hc]
    have hsplit (rest : Text) : splitStep (engine = .informix) m c rest = (false, m.go c .line 0) := by
      simp [splitStep, hskip, hstate, hc]
    obtain ⟨hblank, hend, hlast⟩ := ih hbody.2 rfl rfl (KnownFrom.next h (hsplit _) (hread _))
    rw [ModeMachine.runPrefix_cons, hread, List.forall_mem_cons]
    exact ⟨⟨by decide, hblank⟩, hend, hlast⟩

theorem blank_block {engine : Engine} {m : Scanner} {text more tail : Text}
    (hbody : behindFirst ['*', '/'] text = some more) (hstate : m.state = .block) (hskip : m.skip = 0)
    (h : KnownFrom engine m (.block 0 false) (text ++ tail)) :
    ∃ body, text = body ++ more ∧
      (∀ e ∈ (runPrefix engine.readStep (.block 0 false) body (more ++ tail)).1, isJsSpace e = true) ∧
        (runPrefix engine.readStep (.block 0 false) body (more ++ tail)).2 = .code false false ∧
          ∃ last : Scanner, last.state = .normal ∧ last.skip = 0 ∧
            KnownFrom engine last (.code false false) (more ++ tail) := by
  induction text generalizing m with
  | nil => simp [behindFirst] at hbody
  | cons c text ih =>
    rw [behindFirst] at hbody
    split_ifs at hbody with hclose
    · obtain ⟨rest, hrest⟩ := List.isPrefixOf_iff_prefix.mp hclose
      obtain ⟨rfl, rfl⟩ := List.cons.inj hrest
      obtain rfl := Option.some.inj hbody
      have hsplit (behind : Text) : splitStep (engine = .informix) m '*' ('/' :: behind) =
          (false, m.go '*' .normal 1) := by
        simp [splitStep, hskip, hstate, splitBlock]
      have hread (behind : Text) : engine.readStep (.block 0 false) '*' ('/' :: behind) =
          (' ', .skip (.code false false)) := by
        simp [Engine.readStep]
      have hclosed : KnownFrom engine ((m.go '*' .normal 1).go '/' .normal 0) (.code false false) (rest ++ tail) :=
        KnownFrom.next (KnownFrom.next h (hsplit _) (hread _)) rfl rfl
      refine ⟨['*', '/'], rfl, ?_, ?_, (m.go '*' .normal 1).go '/' .normal 0, rfl, rfl, hclosed⟩
      · simp [ModeMachine.runPrefix, Engine.readStep, isJsSpace, isSpace]
      · simp [ModeMachine.runPrefix, Engine.readStep]
    · have hopen : ¬ (c = '*' ∧ (text ++ tail).head? = some '/') := by
        rintro ⟨rfl, hhead⟩
        have hlong := (eq_append_of_behindFirst hbody)
        obtain ⟨-, -, hlength⟩ := hlong
        cases text with
        | nil => exact absurd hlength (by simp)
        | cons d text =>
          obtain rfl : d = '/' := by simpa using hhead
          exact hclose (by simp)
      have hnested : ¬ (engine = .postgres ∧ c = '/' ∧ (text ++ tail).head? = some '*') := by
        rintro ⟨hengine, hpair⟩
        have hpoint := h.1 hskip
        simp only [hstate] at hpoint
        exact hpoint hengine hpair
      have hread : engine.readStep (.block 0 false) c (text ++ tail) = (' ', .block 0 false) := by
        simp only [Engine.readStep, if_neg hopen, if_neg hnested]
      have hsplit : splitStep (engine = .informix) m c (text ++ tail) = (false, m.go c .block 0) := by
        simp only [splitStep, hskip, hstate, splitBlock, if_neg hopen]
      obtain ⟨body, rfl, hblank, hend, hlast⟩ := ih hbody rfl rfl (KnownFrom.next h hsplit hread)
      rw [List.append_assoc] at hread
      refine ⟨c :: body, rfl, ?_, ?_, hlast⟩
      · rw [ModeMachine.runPrefix_cons, hread, List.forall_mem_cons]
        exact ⟨by decide, hblank⟩
      · rw [ModeMachine.runPrefix_cons, hread]
        exact hend

theorem readStep_newline (engine : Engine) (rest : Text) :
    engine.readStep (.code false false) '\n' rest = ('\n', .code false false) := by
  cases engine <;> simp [Engine.readStep, Engine.readCode, Engine.isQuote] <;> decide

theorem splitStep_newline {informix : Bool} {m : Scanner} (hskip : m.skip = 0)
    (hstate : m.state = .line ∨ m.state = .normal) (rest : Text) :
    splitStep informix m '\n' rest = (false, m.go '\n' .normal 0) := by
  rcases hstate with hstate | hstate <;> simp [splitStep, hskip, hstate, splitNormal]

/-- Behind a line both are back in code. -/
theorem KnownFrom.newline {engine : Engine} {m : Scanner} {rest : Text} (hstate : m.state = .line)
    (hskip : m.skip = 0) (h : KnownFrom engine m (.line false) ('\n' :: rest)) :
    KnownFrom engine ⟨.normal, 0, m.head, m.before, m.routine⟩ (.code false false) ('\n' :: rest) := by
  have hread : engine.readStep (.line false) '\n' rest = ('\n', .code false false) := rfl
  have hnext := KnownFrom.next h (splitStep_newline hskip (.inl hstate) rest) hread
  refine ⟨fun _ ↦ ?_, ?_⟩
  · cases engine <;> simp [KnownCode]
  · simp only [sideBySide, readStep_newline, splitStep_newline (m := ⟨.normal, 0, m.head, m.before, m.routine⟩) rfl
      (.inr rfl)]
    exact hnext

theorem ne_of_isJsSpace {c d : Char} (hc : isJsSpace c = true) (hd : isJsSpace d = false) : c ≠ d := by
  rintro rfl
  rw [hc] at hd
  exact absurd hd (by decide)

/-- In a known statement that is only comments the engine reads nothing but blanks. -/
theorem blank_of_onlyComments {engine : Engine} {text : Text} (h : OnlyComments engine text) (m : Scanner)
    (word : Bool) (tail : Text) (hstate : m.state = .normal) (hskip : m.skip = 0)
    (hknown : KnownFrom engine m (.code false word) (text ++ tail)) :
    ∀ e ∈ (runPrefix engine.readStep (.code false word) text tail).1, isJsSpace e = true := by
  induction h generalizing m word with
  | nil => simp
  | @space c rest hc h ih =>
    have hpoint := hknown.1 hskip
    simp only [hstate] at hpoint
    obtain ⟨after, hread⟩ := readCode_plain hpoint
      ⟨ne_of_isJsSpace hc (by decide), ne_of_isJsSpace hc (by decide), ne_of_isJsSpace hc (by decide)⟩
      (fun h ↦ ne_of_isJsSpace hc (by decide) h.1) (fun h ↦ ne_of_isJsSpace hc (by decide) h.1)
      (fun h ↦ absurd h (ne_of_isJsSpace hc (by decide)))
    have hread' : engine.readStep (.code false word) c (rest ++ tail) = (c, .code false after) := hread
    have halpha : c.isAlpha = false := by
      have hword := isWordChar_of_isJsSpace hc
      simp only [isWordChar, Bool.or_eq_false_iff] at hword
      exact hword.1
    have hsplit : splitStep (engine = .informix) m c (rest ++ tail) = (false, m.go c .normal 0) := by
      simp [splitStep, hskip, hstate, splitNormal, ne_of_isJsSpace hc (d := '\'') (by decide),
        ne_of_isJsSpace hc (d := '"') (by decide), ne_of_isJsSpace hc (d := '`') (by decide),
        ne_of_isJsSpace hc (d := '-') (by decide), ne_of_isJsSpace hc (d := '/') (by decide),
        ne_of_isJsSpace hc (d := '$') (by decide), ne_of_isJsSpace hc (d := ';') (by decide), halpha]
    rw [ModeMachine.runPrefix_cons, hread', List.forall_mem_cons]
    exact ⟨hc, ih _ after rfl rfl (KnownFrom.next hknown hsplit hread')⟩
  | @line opening body rest hopening hbody hrest h ih =>
    rcases hopening with rfl | ⟨rfl, rfl⟩
    · rw [List.append_assoc, List.append_assoc] at hknown
      have hends : engine = .mysql → Engine.endsDashes (('-' :: (body ++ (rest ++ tail))).drop 1).head? = true := by
        rintro rfl
        have hcode := hknown.1 hskip
        simp only [hstate] at hcode
        exact hcode.1.2.2 ⟨rfl, rfl⟩
      have hread : engine.readStep (.code false word) '-' ('-' :: (body ++ (rest ++ tail))) =
          (' ', .line false) := by
        rw [Engine.readStep, Engine.readCode, if_pos ⟨rfl, rfl, hends⟩]
      have hread' : engine.readStep (.line false) '-' (body ++ (rest ++ tail)) = (' ', .line false) := by
        simp [Engine.readStep]
      have hsplit : splitStep (engine = .informix) m '-' ('-' :: (body ++ (rest ++ tail))) =
          (false, m.go '-' .line 1) := by
        simp [splitStep, hskip, hstate, splitNormal]
      have hinside := KnownFrom.next (KnownFrom.next hknown hsplit hread) rfl hread'
      obtain ⟨hblank, hend, last, hlast, hlastSkip, hrestKnown⟩ := blank_line hbody rfl rfl hinside
      have hbehind : ∀ e ∈ (runPrefix engine.readStep (.line false) rest tail).1, isJsSpace e = true := by
        rcases hrest with rfl | ⟨more, rfl⟩
        · simp
        · have hcode : runPrefix engine.readStep (.line false) ('\n' :: more) tail =
              runPrefix engine.readStep (.code false false) ('\n' :: more) tail := by
            rw [ModeMachine.runPrefix_cons, ModeMachine.runPrefix_cons, readStep_newline]
            rfl
          rw [hcode]
          exact ih _ false rfl rfl (hrestKnown.newline hlast hlastSkip)
      have hall : runPrefix engine.readStep (.code false word) (['-', '-'] ++ (body ++ rest)) tail =
          (' ' :: ' ' :: ((runPrefix engine.readStep (.line false) body (rest ++ tail)).1 ++
            (runPrefix engine.readStep (.line false) rest tail).1),
            (runPrefix engine.readStep (.line false) rest tail).2) := by
        have hsource : (['-', '-'] ++ (body ++ rest)) = '-' :: '-' :: (body ++ rest) := rfl
        rw [hsource, ModeMachine.runPrefix_cons, ModeMachine.runPrefix_cons, List.cons_append, List.append_assoc,
          hread, hread', ModeMachine.runPrefix_append, hend]
      rw [hall, List.forall_mem_cons, List.forall_mem_cons, List.forall_mem_append]
      exact ⟨by decide, by decide, hblank, hbehind⟩
    · have hcode := hknown.1 hskip
      simp only [hstate] at hcode
      exact absurd rfl hcode.1.1
  | @brace rest more hengine hbody h ih =>
    have hpoint := hknown.1 hskip
    simp only [hstate] at hpoint
    subst hengine
    exact absurd rfl hpoint.1.1
  | @block rest more hbody h ih =>
    have hversion : ¬ (engine = .mysql ∧ '/' = '/' ∧ ['*', '!'].isPrefixOf ('*' :: (rest ++ tail))) := by
      rintro ⟨rfl, hopen⟩
      have hcode := hknown.1 hskip
      simp only [hstate] at hcode
      exact hcode.1.2.1 hopen
    have hread : engine.readStep (.code false word) '/' ('*' :: (rest ++ tail)) =
        (' ', .skip (.block 0 false)) := by
      rw [Engine.readStep, Engine.readCode, if_neg (by simp), if_neg (by simp), if_neg hversion, if_neg (by simp),
        if_pos ⟨rfl, rfl⟩]
    have hread' : engine.readStep (.skip (.block 0 false)) '*' (rest ++ tail) = (' ', .block 0 false) := rfl
    have hsplit : splitStep (engine = .informix) m '/' ('*' :: (rest ++ tail)) = (false, m.go '/' .block 1) := by
      simp [splitStep, hskip, hstate, splitNormal]
    have hinside := KnownFrom.next (KnownFrom.next hknown hsplit hread) rfl hread'
    obtain ⟨body, rfl, hblank, hend, last, hlast, hlastSkip, hmore⟩ := blank_block hbody rfl rfl hinside
    have hall : runPrefix engine.readStep (.code false word) ('/' :: '*' :: (body ++ more)) tail =
        (' ' :: ' ' :: ((runPrefix engine.readStep (.block 0 false) body (more ++ tail)).1 ++
          (runPrefix engine.readStep (.code false false) more tail).1),
          (runPrefix engine.readStep (.code false false) more tail).2) := by
      rw [ModeMachine.runPrefix_cons, ModeMachine.runPrefix_cons, List.cons_append, hread, hread',
        ModeMachine.runPrefix_append, hend]
    rw [hall, List.forall_mem_cons, List.forall_mem_cons, List.forall_mem_append]
    exact ⟨by decide, by decide, hblank, ih last false hlast hlastSkip hmore⟩

theorem starts_splitFrom {informix : Bool} {m : Scanner} {start i : ℕ} {text : Text} (hle : start ≤ i) :
    ∀ s ∈ splitFrom informix m start i text, start ≤ s.start ∧ s.start ≤ s.stop := by
  induction text generalizing m start i with
  | nil => simpa [splitFrom] using hle
  | cons c rest ih =>
    rw [splitFrom]
    generalize splitStep informix m c rest = result
    obtain ⟨cut, next⟩ := result
    cases cut with
    | false => exact ih (Nat.le_succ_of_le hle)
    | true =>
      rw [List.forall_mem_cons]
      refine ⟨⟨le_rfl, hle⟩, fun s hs ↦ ?_⟩
      have hmore := ih le_rfl s hs
      exact ⟨by omega, hmore.2⟩

/-- The scanner behind a cut. -/
abbrev Scanner.again : Scanner := ⟨.normal, 0, [], some ';', .fresh⟩

/-- Up to the first cut, the engine being in code there. -/
theorem splitFrom_first {engine : Engine} {m : Scanner} {place : Engine.Place} {text : Text}
    (htogether : Together engine m place text) (hknown : KnownFrom engine m place text) (start i : ℕ) :
    splitFrom (engine = .informix) m start i text = [⟨start, i + text.length, m.head ++ text⟩] ∨
      ∃ part rest word, text = part ++ ';' :: rest ∧
        splitFrom (engine = .informix) m start i text = ⟨start, i + part.length, m.head ++ part⟩ ::
          splitFrom (engine = .informix) .again (i + part.length + 1) (i + part.length + 1) rest ∧
        KnownFrom engine .again (.code false word) rest ∧
        run engine.readStep place text = (runPrefix engine.readStep place part (';' :: rest)).1 ++
          ';' :: run engine.readStep (.code false word) rest := by
  induction text generalizing m place i with
  | nil => exact .inl (by simp [splitFrom])
  | cons c rest ih =>
    obtain ⟨hcut, hnext⟩ := together_step htogether hknown.1
    have hafter := hknown.2
    rcases splitStep_cases (engine = .informix) m c rest with ⟨rfl, hstep⟩ | ⟨next, hstep, hhead⟩
    · have hemit : (engine.readStep place ';' rest).1 = ';' := by simpa [hstep] using hcut
      rw [hstep] at hnext
      have hstate : SameState .normal (engine.readStep place ';' rest).2 := by simpa using hnext.state
      simp only [sideBySide, hstep] at hafter
      generalize hplace : (engine.readStep place ';' rest).2 = after at hstate hafter
      cases hstate with
      | normal word =>
        refine .inr ⟨[], rest, word, rfl, ?_, hafter, ?_⟩
        · rw [splitFrom, hstep]
          simp
        · rw [ModeMachine.run_cons, hemit, hplace]
          rfl
    · rw [hstep] at hnext
      simp only [sideBySide, hstep] at hafter
      rcases ih hnext hafter (i + 1) with hlast | ⟨part, more, word, rfl, hsplit, hknown', hrun⟩
      · left
        rw [splitFrom, hstep]
        simp only [hlast, hhead, List.length_cons, List.append_assoc, List.singleton_append]
        rw [Nat.add_assoc, Nat.add_comm 1]
      · refine .inr ⟨c :: part, more, word, rfl, ?_, hknown', ?_⟩
        · rw [splitFrom, hstep]
          simp only [hsplit, hhead, List.length_cons, List.append_assoc, List.singleton_append]
          rw [Nat.add_assoc i 1, Nat.add_comm 1]
        · rw [ModeMachine.run_cons, hrun]
          rfl

theorem blank_statement {engine : Engine} {m : Scanner} {word : Bool} {text : Text} (start : ℕ)
    (hstate : m.state = .normal) (hskip : m.skip = 0) (hhead : m.head = [])
    (hknown : KnownFrom engine m (.code false word) text) :
    ∀ s ∈ splitFrom (engine = .informix) m start start text, OnlyComments engine s.text →
      ∀ e ∈ ((run engine.readStep (.code false word) text).take (s.stop - start)).drop (s.start - start),
        isJsSpace e = true := by
  induction hlength : text.length using Nat.strong_induction_on generalizing m word text start with
  | _ n ih =>
    have htogether : Together engine m (.code false word) text := together_zero hskip (hstate ▸ .normal word)
    rcases splitFrom_first htogether hknown start start with hlast | ⟨part, rest, after, rfl, hsplit, hagain, hrun⟩
    · rw [hlast, List.forall_mem_singleton, hhead]
      intro hcomments e he
      refine blank_of_onlyComments hcomments m word [] hstate hskip (by simpa using hknown) e ?_
      have hwhole : run engine.readStep (.code false word) (text ++ []) =
          (runPrefix engine.readStep (.code false word) text []).1 ++ [] := ModeMachine.run_append _ _ _
      rw [List.append_nil, List.append_nil] at hwhole
      rw [hwhole] at he
      exact List.mem_of_mem_take (List.mem_of_mem_drop he)
    · have hcount : (runPrefix engine.readStep (.code false word) part (';' :: rest)).1.length = part.length :=
        ModeMachine.length_runPrefix _ _ _
      rw [hsplit, hrun, hhead, List.forall_mem_cons]
      constructor
      · intro hcomments e he
        refine blank_of_onlyComments hcomments m word (';' :: rest) hstate hskip hknown e ?_
        rw [Nat.add_sub_cancel_left, Nat.sub_self, List.drop_zero, List.take_append_of_le_length hcount.ge] at he
        exact List.mem_of_mem_take he
      · intro s hs hcomments e he
        have hshort : rest.length < n := by
          rw [← hlength]
          simp
          omega
        have hplace := starts_splitFrom le_rfl s hs
        refine ih rest.length hshort (start + part.length + 1) rfl rfl rfl hagain rfl s hs hcomments e ?_
        have hstop : s.stop - start = ((runPrefix engine.readStep (.code false word) part (';' :: rest)).1 ++
            [';']).length + (s.stop - (start + part.length + 1)) := by
          rw [List.length_append, hcount, List.length_singleton]
          omega
        have hstart : s.start - start = ((runPrefix engine.readStep (.code false word) part (';' :: rest)).1 ++
            [';']).length + (s.start - (start + part.length + 1)) := by
          rw [List.length_append, hcount, List.length_singleton]
          omega
        rwa [List.append_cons, hstop, hstart, List.take_length_add_append, List.drop_length_add_append] at he

theorem drops_of_known {engine : Engine} {script : Text} (h : KnownScript engine script) :
    ∀ s ∈ splitStatements script engine.driver, isCommentOnly (jsTrim s.text) engine.driver = true →
      RunsNothing (readOf engine script s) := by
  have hfamily : decide (engineFamily engine.driver = "informix".toList) = decide (engine = .informix) := by
    cases engine <;> decide
  intro s hs hcomments
  unfold splitStatements at hs
  rw [hfamily] at hs
  have hblank := blank_statement 0 rfl rfl rfl h s hs (onlyComments_of_isCommentOnly hcomments)
  have hnone : (readOf engine script s).dropWhile isJsSpace = [] := List.dropWhile_eq_nil_iff.mpr hblank
  rw [RunsNothing, hnone]
  rfl

end Squaero.Front
