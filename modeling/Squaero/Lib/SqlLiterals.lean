import Squaero.Lib.SqlScript
import Squaero.Lib.SqlLex

/-!
# Literals in a script

What comes of a variable of a script, and of a literal in its place. A literal stays a token of its own
unless the token before it goes on with its first character, or the literal goes on with what follows.
-/

namespace Squaero.Lib.SqlScript

variable {r : Rules} {m m' : Mode} {c : Char}

/-! ## What a token starts with -/

theorem lookup_usual (h : c ∉ ['\'', '"', '`', '[', '{']) : r.quotes.lookup c = none := by
  rw [List.lookup_eq_none_iff]
  intro q hq
  have hne : c ≠ q.1 := fun heq ↦ h (heq ▸ r.quotes_usual q hq)
  simpa using hne

theorem start_colon : start r ':' = .colon := by
  have hsigil : ':' ∉ r.sigils := fun h ↦ absurd (r.sigils_usual _ h) (by decide)
  have hlookup : r.quotes.lookup ':' = none := lookup_usual (by decide)
  have hstarts : startsWord r ':' = false := by simpa [startsWord, hsigil] using by decide
  simp [start, hlookup, hstarts, show isSpace ':' = false by decide, show ':'.isDigit = false by decide]

theorem start_dot : start r '.' = .dot := by
  have hsigil : '.' ∉ r.sigils := fun h ↦ absurd (r.sigils_usual _ h) (by decide)
  have hlookup : r.quotes.lookup '.' = none := lookup_usual (by decide)
  have hstarts : startsWord r '.' = false := by simpa [startsWord, hsigil] using by decide
  simp [start, hlookup, hstarts, show isSpace '.' = false by decide, show '.'.isDigit = false by decide]

theorem start_minus : start r '-' = .op (.of '-') := by
  have hsigil : '-' ∉ r.sigils := fun h ↦ absurd (r.sigils_usual _ h) (by decide)
  have hlookup : r.quotes.lookup '-' = none := lookup_usual (by decide)
  have hstarts : startsWord r '-' = false := by simpa [startsWord, hsigil] using by decide
  simp [start, hlookup, hstarts, r.minus_operator, show isSpace '-' = false by decide,
    show '-'.isDigit = false by decide]

theorem start_quote : start r '\'' = .quoted r.string (.of '\'') := by
  simp [start, r.string_quotes, show isSpace '\'' = false by decide]

theorem start_digit (h : c.isDigit = true) : start r c = .num .whole (.of c) := by
  have hnot (d : Char) (hd : d.isDigit = false) : c ≠ d := fun heq ↦ by simp [heq, hd] at h
  have hsigil : c ∉ r.sigils := fun hmem ↦ by
    have hsigil := r.sigils_usual _ hmem
    simp only [List.mem_cons, List.not_mem_nil, or_false] at hsigil
    rcases hsigil with rfl | rfl | rfl | rfl <;> exact absurd h (by decide)
  have hlookup : r.quotes.lookup c = none := lookup_usual fun hmem ↦ by
    simp only [List.mem_cons, List.not_mem_nil, or_false] at hmem
    rcases hmem with rfl | rfl | rfl | rfl | rfl <;> exact absurd h (by decide)
  have hwide := isWide_of_isDigit h
  have hstarts : startsWord r c = false := by simp [startsWord, isWordChar_of_isDigit h, hwide, hsigil]
  simp [start, hlookup, hstarts, isSpace_of_isDigit h, hnot '#' (by decide), hnot '$' (by decide), h]

theorem start_letter (h : isWordChar c = true) : start r c = .word (.of c) := by
  have hnot (d : Char) (hd : isWordChar d = false) : c ≠ d := fun heq ↦ by simp [heq, hd] at h
  have hspace : isSpace c = false := by
    by_contra hspace
    simp [isWordChar_of_isSpace (Bool.of_not_eq_false hspace)] at h
  have hlookup : r.quotes.lookup c = none := lookup_usual fun hmem ↦ by
    simp only [List.mem_cons, List.not_mem_nil, or_false] at hmem
    rcases hmem with rfl | rfl | rfl | rfl | rfl <;> exact absurd h (by decide)
  simp [start, hlookup, startsWord, h, hspace, hnot '#' (by decide), hnot '$' (by decide)]

theorem isWord_of_isWordChar (h : isWordChar c = true) : isWord r c = true := by simp [isWord, h]

theorem isWord_of_isDigit (h : c.isDigit = true) : isWord r c = true := by simp [isWord, h]

theorem isWord_usual (h : c ∉ ['@', '#', '$'])
    (hc : isWordChar c = false ∧ c.isDigit = false ∧ isWide c = false) : isWord r c = false := by
  have hextra : c ∉ r.extras := fun hmem ↦ h (r.extras_usual _ hmem)
  simp [isWord, hc, hextra]

/-! ## Words -/

/-- A word that changes nothing behind it. -/
theorem more_word {p : Part} (hp : p.text ∉ [['e'], ['E'], ['@']]) :
    more r (.word p) c = if isWord r c then some (.word (p.push c)) else none := by
  have hfind : (r.prefixes.find? fun x ↦ x.1 = p.text ∧ x.2.1 = c) = none := by
    rw [List.find?_eq_none]
    intro x hx heq
    exact hp ((of_decide_eq_true heq).1 ▸ r.prefixes_usual x hx)
  rw [more, hfind]
  rfl

theorem scan_word {p : Part} {text : Text} (htext : ∀ c ∈ text, isWord r c = true) (rest : Text) :
    (lexer r).scan (.word p) (text ++ rest) = (lexer r).scan (.word ⟨p.first, p.more ++ text⟩) rest := by
  induction text generalizing p with
  | nil => simp
  | cons c text ih =>
    have hmore : (lexer r).more (.word p) c = some (.word (p.push c)) := if_pos (htext c List.mem_cons_self)
    rw [List.cons_append, Lexer.scan_more hmore,
      ih fun c hc ↦ htext c (List.mem_cons_of_mem _ hc)]
    simp [Part.push]

theorem modeAfter_word {p : Part} {text : Text} (htext : ∀ c ∈ text, isWord r c = true) :
    (lexer r).modeAfter (.word p) text = .word ⟨p.first, p.more ++ text⟩ := by
  induction text generalizing p with
  | nil => simp [Lexer.modeAfter]
  | cons c text ih =>
    have hmore : (lexer r).more (.word p) c = some (.word (p.push c)) := if_pos (htext c List.mem_cons_self)
    have hcons : (lexer r).modeAfter (.word p) (c :: text) =
        (lexer r).modeAfter ((lexer r).next (.word p) c) text := rfl
    rw [hcons, Lexer.next_more hmore, ih fun c hc ↦ htext c (List.mem_cons_of_mem _ hc)]
    simp [Part.push]

/-! ## Variables -/

theorem variable_plain (name : Text) : Part.text ⟨':', name⟩ ∉ [['e'], ['E'], ['@']] := by simp [Part.text]

/-- A name that a variable can have. -/
def isName : Text → Bool
  | [] => false
  | c :: name => isWordChar c && name.all fun d ↦ isWordChar d || d.isDigit

variable {name : Text}

theorem isWord_of_isName (h : isName name = true) : ∀ c ∈ name, isWord r c = true := by
  intro c hc
  cases name with
  | nil => exact absurd hc List.not_mem_nil
  | cons d name =>
    simp only [isName, Bool.and_eq_true, List.all_eq_true, Bool.or_eq_true] at h
    cases hc with
    | head => exact isWord_of_isWordChar h.1
    | tail _ hc => exact (h.2 c hc).elim isWord_of_isWordChar isWord_of_isDigit

theorem more_colon (h : isName name = true) :
    ∃ c rest, name = c :: rest ∧ (lexer r).more .colon c = some (.word ⟨':', [c]⟩) := by
  cases name with
  | nil => exact absurd h nofun
  | cons c rest =>
    have hc : isWordChar c = true := (Bool.and_eq_true_iff.mp h).1
    have hcolon : c ≠ ':' := fun heq ↦ by simp [heq, show isWordChar ':' = false by decide] at hc
    have hequals : c ≠ '=' := fun heq ↦ by simp [heq, show isWordChar '=' = false by decide] at hc
    exact ⟨c, rest, rfl, by simp [lexer, more, hcolon, hequals, hc]⟩

theorem scan_variable (h : isName name = true) (rest : Text) :
    (lexer r).scan .idle (':' :: (name ++ rest)) = (lexer r).scan (.word ⟨':', name⟩) rest := by
  obtain ⟨c, name, rfl, hmore⟩ := more_colon (r := r) h
  have hname : ∀ d ∈ name, isWord r d = true := fun d hd ↦ isWord_of_isName h d (List.mem_cons_of_mem _ hd)
  have hcolon : (lexer r).start ':' = .colon := start_colon
  calc
    (lexer r).scan .idle (':' :: (c :: name ++ rest)) = (lexer r).scan ((lexer r).start ':') (c :: name ++ rest) :=
      Lexer.scan_idle_cons
    _ = (lexer r).scan (.word ⟨':', [c]⟩) (name ++ rest) := by
      rw [hcolon, List.cons_append, Lexer.scan_more hmore]
    _ = (lexer r).scan (.word ⟨':', c :: name⟩) rest := scan_word hname rest

theorem modeAfter_variable (h : isName name = true) (hcut : (lexer r).more m ':' = none) :
    (lexer r).modeAfter m (':' :: name) = .word ⟨':', name⟩ := by
  obtain ⟨c, name, rfl, hmore⟩ := more_colon (r := r) h
  have hname : ∀ d ∈ name, isWord r d = true := fun d hd ↦ isWord_of_isName h d (List.mem_cons_of_mem _ hd)
  have hcolon : (lexer r).next m ':' = .colon := (Lexer.next_start hcut).trans start_colon
  have hnext : (lexer r).next .colon c = .word ⟨':', [c]⟩ := Lexer.next_more hmore
  calc
    (lexer r).modeAfter m (':' :: c :: name) =
        (lexer r).modeAfter ((lexer r).next ((lexer r).next m ':') c) name := rfl
    _ = (lexer r).modeAfter (.word ⟨':', [c]⟩) name := by rw [hcolon, hnext]
    _ = .word ⟨':', c :: name⟩ := modeAfter_word hname

/-- Only operators go on as operators. -/
theorem operator_of_more {run' : Part} (h : more r m c = some (.op run')) :
    c ∈ r.operators ∧ ∃ run, m = .op run := by
  cases goes_of_more h with
  | pushes h => exact absurd h.steady' nofun
  | ranges hm hc hm' => exact absurd hm' nofun
  | operator hm hc hm' => exact ⟨hc, _, hm⟩
  | comment hm h => exact absurd h.steady nofun

/-- Before a variable that is a token, no other one is pending. -/
theorem more_before_variable {rest : Text} {before after : List Text}
    (hscan : (lexer r).scan m (':' :: name ++ rest) = before ++ (':' :: name) :: after)
    (hflat : before.flatten = (pieces r m).flatten) : more r m ':' = none := by
  cases hmore : more r m ':' with
  | none => rfl
  | some m' =>
    refine absurd hflat (not_cut hmore (by decide) (fun run hrun ↦ ?_) hscan)
    exact absurd (r.operators_usual ':' (operator_of_more (hrun ▸ hmore)).1).1 (by decide)

/-- Behind a variable that is a token, its name does not go on. -/
theorem isWord_behind_variable {rest : Text} {after : List Text}
    (hread : (lexer r).scan (.word ⟨':', name⟩) rest = (':' :: name) :: after) :
    ∀ c, rest.head? = some c → isWord r c = false := by
  intro c hc
  by_contra hword
  rw [Bool.not_eq_false] at hword
  have hmore : more r (.word ⟨':', name⟩) c = some (.word (Part.push ⟨':', name⟩ c)) :=
    (more_word (variable_plain name)).trans (if_pos hword)
  have hdot : c ≠ '.' := fun heq ↦ by
    rw [heq, isWord_usual (by decide) (by decide)] at hword
    exact absurd hword nofun
  have hlonger : (lexer r).scan (.word ⟨':', name⟩) (c :: rest.tail) = [':' :: name] ++ after := by
    rw [List.cons_head?_tail hc, hread]
    rfl
  refine not_cut hmore hdot nofun hlonger ?_
  simp [pieces, closed, last, Part.text]

/-- Where a variable is one of the tokens of a script, the script is cut before and behind it. -/
theorem isToken_of_read {ι : Type*} {src : ι → Text} {i : ι} (hi : src i = ':' :: name) (h : isName name = true)
    {rest : Text} {before after : List Text}
    (hscan : (lexer r).scan m (src i ++ rest) = before ++ src i :: after)
    (hflat : before.flatten = (pieces r m).flatten) :
    before = pieces r m ∧ after = (lexer r).scan .idle rest ∧ (lexer r).IsToken src m i rest := by
  rw [hi] at hscan
  have hcut : (lexer r).more m ':' = none := more_before_variable hscan hflat
  have hvariable : (lexer r).scan m (':' :: name ++ rest) =
      pieces r m ++ (lexer r).scan (.word ⟨':', name⟩) rest := by
    rw [List.cons_append, Lexer.scan_cut hcut]
    exact congrArg _ (scan_variable h rest)
  have hafter := modeAfter_variable h hcut
  obtain ⟨t, ts, hread, ht⟩ := scan_kept (r := r) (m := .word ⟨':', name⟩) rfl rest
  have ht : ':' :: name <+: t := ht
  have htne : t ≠ [] := List.ne_nil_of_length_pos (Nat.lt_of_lt_of_le (Nat.succ_pos _) ht.length_le)
  have hread : (lexer r).scan (.word ⟨':', name⟩) rest = t :: ts := hread
  rw [hvariable, hread] at hscan
  obtain ⟨hbefore, rfl, rfl⟩ := eq_of_flatten_eq hscan.symm hflat (List.cons_ne_nil _ _) htne
  have hends : ∀ c, rest.head? = some c → (lexer r).more (.word ⟨':', name⟩) c = none := by
    intro c hc
    have hword := isWord_behind_variable hread c hc
    exact (more_word (variable_plain name)).trans (if_neg (by simp [hword]))
  have hcutBehind : (lexer r).scan (.word ⟨':', name⟩) rest = [':' :: name] ++ (lexer r).scan .idle rest :=
    Lexer.scan_of_ends hends
  have hrest : after = (lexer r).scan .idle rest := (List.cons.inj (hread.symm.trans hcutBehind)).2
  refine ⟨hbefore, hrest, ?_, ?_⟩
  · rw [hi, hvariable, hcutBehind]
    rfl
  · rw [hi, hafter]
    exact hends

/-- A variable that is a token is cut off by itself, and what follows is no part of its name. -/
theorem cut_of_isToken {ι : Type*} {src : ι → Text} {i : ι} (hi : src i = ':' :: name) (h : isName name = true)
    {rest : Text} (htoken : (lexer r).IsToken src m i rest) :
    (lexer r).more m ':' = none ∧ ∀ c, rest.head? = some c → isWord r c = false := by
  have hscan := htoken.scan
  rw [hi] at hscan
  have hcut : (lexer r).more m ':' = none := more_before_variable hscan rfl
  rw [List.cons_append, Lexer.scan_cut hcut] at hscan
  have hread : (lexer r).scan (.word ⟨':', name⟩) rest = (':' :: name) :: (lexer r).scan .idle rest :=
    (scan_variable h rest).symm.trans (List.append_cancel_left hscan)
  exact ⟨hcut, isWord_behind_variable hread⟩

/-! ## What is before a literal -/

/-- The token that is pending takes `c` in, which would start a token by itself. -/
def joins (r : Rules) (m : Mode) (c : Char) : Bool :=
  (more r m c).any fun m' ↦ pieces r m' ≠ pieces r m ++ [[c]]

/-- A character that a pending token leaves alone goes on with nothing, unless it is another operator. -/
theorem more_of_not_joins (h : joins r m c = false) :
    more r m c = none ∨ ∃ run, m = .op run ∧ c ∈ r.operators ∧ more r m c = some (.op (run.push c)) ∧
      r.split (run.push c).text = r.split run.text ++ [[c]] := by
  cases hmore : more r m c with
  | none => exact .inl rfl
  | some m' =>
    have hpieces : pieces r m' = pieces r m ++ [[c]] := by simpa [joins, hmore] using h
    right
    cases goes_of_more hmore with
    | pushes h =>
      rw [pieces_steady h.steady, pieces_steady h.steady', h.closed] at hpieces
      have hlength := congrArg List.length hpieces
      simp at hlength
    | @ranges digits hm hc hm' =>
      subst hm hm'
      have hhead : digits.text = digits.text ++ ['.'] := (List.cons.inj hpieces).1
      simp at hhead
    | operator hm hc hm' =>
      subst hm hm'
      exact ⟨_, rfl, hc, rfl, hpieces⟩
    | comment hm h =>
      obtain ⟨ops, begun, -, hbegun, -, hlast⟩ := h.opening
      rw [pieces_steady h.steady, hlast] at hpieces
      have hends := (List.append_inj' hpieces rfl).2
      simp [hbegun] at hends

/-- What starts with `c` is read by itself exactly when the pending token leaves `c` alone. -/
theorem scan_literal_iff {rest t : Text} {ts : List Text} (hc : c ≠ '.')
    (hop : c ∈ r.operators → t = [c] ∧ start r c = .op (.of c) ∧
      ∀ d, rest.head? = some d → ∀ run, (lexer r).more (.op run) d = none) :
    (lexer r).scan m (c :: rest) = pieces r m ++ t :: ts ↔
      joins r m c = false ∧ (lexer r).scan .idle (c :: rest) = t :: ts := by
  have hcut (hcut : (lexer r).more m c = none) : (lexer r).scan m (c :: rest) =
      pieces r m ++ (lexer r).scan .idle (c :: rest) := Lexer.scan_cut hcut
  have hidle : (lexer r).scan .idle (c :: rest) = (lexer r).scan (start r c) rest := Lexer.scan_idle_cons
  cases hjoins : joins r m c with
  | false =>
    simp only [true_and]
    obtain hmore | ⟨run, rfl, hmem, hmore, hsplit⟩ := more_of_not_joins hjoins
    · rw [hcut hmore, List.append_right_inj]
    · obtain ⟨rfl, hstart, hends⟩ := hop hmem
      have hmore : (lexer r).more (.op run) c = some (.op (run.push c)) := hmore
      have hrun (run : Part) : (lexer r).scan (.op run) rest = r.split run.text ++ (lexer r).scan .idle rest :=
        Lexer.scan_of_ends fun d hd ↦ hends d hd run
      rw [Lexer.scan_more hmore, hrun, hsplit, hidle, hstart, hrun, Part.text_of, r.split_single]
      simp [pieces]
  | true =>
    simp only [Bool.true_eq_false, false_and, iff_false]
    intro hscan
    obtain ⟨m', hmore, hpieces⟩ : ∃ m', more r m c = some m' ∧ pieces r m' ≠ pieces r m ++ [[c]] := by
      simpa [joins, Option.any_eq_true] using hjoins
    by_cases hoperator : ∃ run, m' = .op run
    · obtain ⟨run', rfl⟩ := hoperator
      obtain ⟨hmem, run, rfl⟩ := operator_of_more hmore
      obtain ⟨rfl, -, hends⟩ := hop hmem
      have hmore' : (lexer r).more (.op run) c = some (.op run') := hmore
      have hrun : (lexer r).scan (.op run') rest = pieces r (.op run') ++ (lexer r).scan .idle rest :=
        Lexer.scan_of_ends fun d hd ↦ hends d hd run'
      rw [Lexer.scan_more hmore', hrun, ← List.singleton_append, ← List.append_assoc] at hscan
      refine hpieces (eq_of_flatten_length hscan ?_ (r.split_ne _) ?_)
      · rw [flatten_more hmore, List.flatten_append]
        rfl
      · simp [pieces, r.split_ne]
    · exact not_cut hmore hc (fun run hrun ↦ hoperator ⟨run, hrun⟩) hscan rfl

/-- A run of operators ends before a digit. -/
theorem more_op_digit (h : c.isDigit = true) (run : Part) : more r (.op run) c = none := by
  have hstar : c ≠ '*' := fun heq ↦ by simp [heq, show '*'.isDigit = false by decide] at h
  have hminus : c ≠ '-' := fun heq ↦ by simp [heq, show '-'.isDigit = false by decide] at h
  have hoperator : c ∉ r.operators := fun hmem ↦
    absurd ((r.operators_usual c hmem).2.1.symm.trans h) nofun
  simp [more, moreOperator, hstar, hminus, isSpace_of_isDigit h, hoperator]

/-! ## What is behind a literal -/

theorem ends_word {p : Part} (hp : p.text ∉ [['e'], ['E'], ['@']]) {rest : Text}
    (hrest : ∀ c, rest.head? = some c → isWord r c = false) :
    (lexer r).scan (.word p) rest = p.text :: (lexer r).scan .idle rest := by
  refine Lexer.scan_of_ends fun c hc ↦ ?_
  have hmore : more r (.word p) c = _ := more_word hp
  exact hmore.trans (if_neg (by simp [hrest c hc]))

/-- A keyword is read up to what is no part of a name. -/
theorem scan_keyword {word : Text} (hletter : ∃ c rest, word = c :: rest ∧ isWordChar c = true)
    (hword : ∀ c ∈ word, isWord r c = true) (hbegins : word ∉ [['e'], ['E'], ['@']]) {rest : Text}
    (hrest : ∀ c, rest.head? = some c → isWord r c = false) :
    (lexer r).scan .idle (word ++ rest) = word :: (lexer r).scan .idle rest := by
  obtain ⟨c, word, rfl, hc⟩ := hletter
  have hstart : (lexer r).start c = .word (.of c) := start_letter hc
  calc
    (lexer r).scan .idle (c :: word ++ rest) = (lexer r).scan ((lexer r).start c) (word ++ rest) :=
      Lexer.scan_idle_cons
    _ = (lexer r).scan (.word ⟨c, word⟩) rest := by
      rw [hstart, scan_word fun d hd ↦ hword d (List.mem_cons_of_mem _ hd)]
      rfl
    _ = (c :: word) :: (lexer r).scan .idle rest := ends_word (p := ⟨c, word⟩) hbegins hrest

theorem scan_digits {stage : Stage} (hstage : stage = .whole ∨ stage = .fraction) {p : Part} {digits : Text}
    (hdigits : ∀ c ∈ digits, c.isDigit = true) (rest : Text) :
    (lexer r).scan (.num stage p) (digits ++ rest) =
      (lexer r).scan (.num stage ⟨p.first, p.more ++ digits⟩) rest := by
  induction digits generalizing p with
  | nil => simp
  | cons c digits ih =>
    have hc : c.isDigit = true := hdigits c List.mem_cons_self
    have hmore : (lexer r).more (.num stage p) c = some (.num stage (p.push c)) := by
      rcases hstage with rfl | rfl <;> exact if_pos hc
    rw [List.cons_append, Lexer.scan_more hmore, ih fun d hd ↦ hdigits d (List.mem_cons_of_mem _ hd)]
    simp [Part.push]

/-- A number ends before what is no part of a name, a dot apart. -/
theorem ends_number {stage : Stage} (hstage : stage = .whole ∨ stage = .fraction) {p : Part} {rest : Text}
    (hrest : ∀ c, rest.head? = some c → isWord r c = false ∧ (stage = .whole → c ≠ '.')) :
    (lexer r).scan (.num stage p) rest = p.text :: (lexer r).scan .idle rest := by
  refine Lexer.scan_of_ends fun c hc ↦ ?_
  obtain ⟨hword, hdot⟩ := hrest c hc
  have hdigit : c.isDigit = false := by
    by_contra hdigit
    rw [isWord_of_isDigit (Bool.of_not_eq_false hdigit)] at hword
    exact absurd hword nofun
  have hletter (d : Char) (hd : isWordChar d = true) : c ≠ d := fun heq ↦ by
    rw [heq, isWord_of_isWordChar hd] at hword
    exact absurd hword nofun
  have hexponent : ¬ (c = 'e' ∨ c = 'E') := not_or.mpr ⟨hletter _ (by decide), hletter _ (by decide)⟩
  rcases hstage with rfl | rfl
  · simp [lexer, more, moreNumber, hdigit, hdot rfl, hexponent, hword]
  · simp [lexer, more, moreNumber, hdigit, hexponent, hword]

/-- What would go on with a whole number: a dot, unless it is the first of two that are an operator. -/
def dotBehind (r : Rules) : Text → Bool
  | '.' :: rest => !(r.ranges && rest.head? = some '.')
  | _ => false

/-- A dot that is no operator belongs to the number before it. -/
theorem scan_pointed {p : Part} {rest : Text} (hrest : ¬ (r.ranges = true ∧ rest.head? = some '.')) :
    ∃ t ts, (lexer r).scan (.pointed p) rest = t :: ts ∧ p.text ++ ['.'] <+: t := by
  cases rest with
  | nil => exact ⟨_, _, rfl, List.prefix_rfl⟩
  | cons d rest =>
    cases hmore : (lexer r).more (.pointed p) d with
    | none => exact ⟨_, _, Lexer.scan_cut hmore, List.prefix_rfl⟩
    | some m' =>
      have hmore' : more r (.pointed p) d = some m' := hmore
      rw [Lexer.scan_more hmore]
      cases goes_of_more hmore' with
      | pushes h =>
        obtain ⟨hclosed, -, hlast⟩ := kept_steady (r := r) h.steady'
        obtain ⟨t, ts, hread, ht⟩ := scan_kept (r := r) (holds_steady h.steady') rest
        rw [hclosed, h.closed] at hread
        rw [h.last, List.dropLast_concat] at hlast
        exact ⟨t, ts, hread, hlast.trans ht⟩
      | ranges hm hd hm' =>
        subst hd hm'
        have hranges : r.ranges = false := by simpa using hrest
        simp [more, morePointed, hranges, isWord_usual (r := r) (c := '.') (by decide) (by decide)] at hmore'
      | operator hm hc hm' => cases hm
      | comment hm h => cases hm

theorem ends_whole {p : Part} {rest : Text} {others : List Text}
    (hrest : ∀ c, rest.head? = some c → isWord r c = false) :
    (lexer r).scan (.num .whole p) rest = p.text :: others ↔
      dotBehind r rest = false ∧ (lexer r).scan .idle rest = others := by
  by_cases hdot : ∃ rest', rest = '.' :: rest'
  · obtain ⟨rest, rfl⟩ := hdot
    have hmore : (lexer r).more (.num .whole p) '.' = some (.pointed p) := rfl
    rw [Lexer.scan_more hmore]
    by_cases hrange : r.ranges = true ∧ rest.head? = some '.'
    · obtain ⟨rest, rfl⟩ : ∃ rest', rest = '.' :: rest' := ⟨rest.tail, (List.cons_head?_tail hrange.2).symm⟩
      have hpointed : (lexer r).more (.pointed p) '.' = some (.range p) := by
        simp [lexer, more, morePointed, hrange.1, show '.'.isDigit = false by decide]
      have hdots : (lexer r).more .dot '.' = some (.done [] ⟨'.', ['.']⟩) := by
        simp [lexer, more, hrange.1, show '.'.isDigit = false by decide]
      have hstart : (lexer r).start '.' = .dot := start_dot
      have hleft : (lexer r).scan (.range p) rest = [p.text, ['.', '.']] ++ (lexer r).scan .idle rest :=
        Lexer.scan_of_ends fun _ _ ↦ rfl
      have hright : (lexer r).scan .idle ('.' :: '.' :: rest) = ['.', '.'] :: (lexer r).scan .idle rest := by
        calc
          (lexer r).scan .idle ('.' :: '.' :: rest) = (lexer r).scan ((lexer r).start '.') ('.' :: rest) :=
            Lexer.scan_idle_cons
          _ = (lexer r).scan (.done [] ⟨'.', ['.']⟩) rest := by rw [hstart, Lexer.scan_more hdots]
          _ = (r.split [] ++ [['.', '.']]) ++ (lexer r).scan .idle rest := Lexer.scan_of_ends fun _ _ ↦ rfl
          _ = _ := by rw [split_nil]; rfl
      rw [Lexer.scan_more hpointed, hleft, hright]
      simp [dotBehind, hrange.1]
    · have hdotBehind : dotBehind r ('.' :: rest) = true := by
        simpa [dotBehind, imp_iff_not_or] using hrange
      simp only [hdotBehind, Bool.true_eq_false, false_and, iff_false]
      intro hscan
      obtain ⟨t, ts, hread, ht⟩ := scan_pointed (p := p) hrange
      rw [hread] at hscan
      rw [(List.cons.inj hscan).1] at ht
      have hlength := ht.length_le
      rw [List.length_append, List.length_singleton] at hlength
      omega
  · have hnone : dotBehind r rest = false := by
      unfold dotBehind
      split
      · exact absurd ⟨_, rfl⟩ hdot
      · rfl
    have hends : (lexer r).scan (.num .whole p) rest = p.text :: (lexer r).scan .idle rest := by
      refine ends_number (.inl rfl) fun c hc ↦ ⟨hrest c hc, fun _ heq ↦ hdot ?_⟩
      exact ⟨rest.tail, (heq ▸ List.cons_head?_tail hc).symm⟩
    rw [hends, hnone]
    simp

theorem scan_number {c : Char} {digits : Text} (hc : c.isDigit = true) (hdigits : ∀ d ∈ digits, d.isDigit = true)
    (rest : Text) :
    (lexer r).scan .idle (c :: digits ++ rest) = (lexer r).scan (.num .whole ⟨c, digits⟩) rest := by
  have hstart : (lexer r).start c = .num .whole (.of c) := start_digit hc
  calc
    (lexer r).scan .idle (c :: digits ++ rest) = (lexer r).scan ((lexer r).start c) (digits ++ rest) :=
      Lexer.scan_idle_cons
    _ = (lexer r).scan (.num .whole ⟨c, digits⟩) rest := by
      rw [hstart, scan_digits (.inl rfl) hdigits]
      rfl

/-- A number with a fraction is one token. -/
theorem scan_fraction {c d : Char} {digits more : Text} (hc : c.isDigit = true)
    (hdigits : ∀ d ∈ digits, d.isDigit = true) (hd : d.isDigit = true) (hmore : ∀ d ∈ more, d.isDigit = true)
    {rest : Text} (hrest : ∀ c, rest.head? = some c → isWord r c = false) :
    (lexer r).scan .idle (c :: digits ++ '.' :: d :: more ++ rest) =
      (c :: digits ++ '.' :: d :: more) :: (lexer r).scan .idle rest := by
  have hdot : (lexer r).more (.num .whole ⟨c, digits⟩) '.' = some (.pointed ⟨c, digits⟩) := rfl
  have hpointed : (lexer r).more (.pointed ⟨c, digits⟩) d = some (.num .fraction ⟨c, digits ++ ['.'] ++ [d]⟩) :=
    if_pos hd
  calc
    (lexer r).scan .idle (c :: digits ++ '.' :: d :: more ++ rest) =
        (lexer r).scan (.num .whole ⟨c, digits⟩) ('.' :: d :: (more ++ rest)) := by
      rw [List.append_assoc]
      exact scan_number hc hdigits _
    _ = (lexer r).scan (.num .fraction ⟨c, digits ++ ['.'] ++ [d] ++ more⟩) rest := by
      rw [Lexer.scan_more hdot, Lexer.scan_more hpointed, scan_digits (.inr rfl) hmore]
    _ = (c :: (digits ++ ['.'] ++ [d] ++ more)) :: (lexer r).scan .idle rest :=
      ends_number (.inr rfl) fun c hc ↦ ⟨hrest c hc, nofun⟩
    _ = _ := by simp

/-! ## Strings -/

theorem scan_spelled {spelled value : Text} (h : SqlLex.Spells ⟨'\'', true, r.string.backslash⟩ spelled value)
    (p : Part) (rest : Text) : (lexer r).scan (.quoted r.string p) (spelled ++ rest) =
      (lexer r).scan (.quoted r.string ⟨p.first, p.more ++ spelled⟩) rest := by
  obtain ⟨hclose, hdoubled⟩ := r.string_doubled
  induction h generalizing p with
  | nil => simp
  | @plain c spelled value hne hescape _ ih =>
    have hmore : (lexer r).more (.quoted r.string p) c = some (.quoted r.string (p.push c)) := by
      have hne : c ≠ '\'' := hne
      have hescape : ¬ (c = '\\' ∧ r.string.backslash = true) := hescape
      simp [lexer, more, hclose, hne, hescape]
    rw [List.cons_append, Lexer.scan_more hmore, ih]
    simp [Part.push]
  | @doubled spelled value _ ih =>
    have hfirst : (lexer r).more (.quoted r.string p) '\'' = some (.closing r.string (p.push '\'')) := by
      simp [lexer, more, hclose, hdoubled]
    have hsecond : (lexer r).more (.closing r.string (p.push '\'')) '\'' =
        some (.quoted r.string ((p.push '\'').push '\'')) := by
      simp [lexer, more, hclose]
    rw [List.cons_append, List.cons_append, Lexer.scan_more hfirst, Lexer.scan_more hsecond, ih]
    simp [Part.push]
  | @escaped c spelled value hescape _ _ ih =>
    have hbackslash : r.string.backslash = true := hescape
    have hfirst : (lexer r).more (.quoted r.string p) '\\' = some (.escaped r.string (p.push '\\')) := by
      simp [lexer, more, hclose, hbackslash]
    have hsecond : (lexer r).more (.escaped r.string (p.push '\\')) c =
        some (.quoted r.string ((p.push '\\').push c)) := rfl
    rw [List.cons_append, List.cons_append, Lexer.scan_more hfirst, Lexer.scan_more hsecond, ih]
    simp [Part.push]

/-- A string is one token up to another quote. -/
theorem scan_string_iff {spelled value : Text} (h : SqlLex.Spells ⟨'\'', true, r.string.backslash⟩ spelled value)
    {rest : Text} {others : List Text} :
    (lexer r).scan .idle ('\'' :: (spelled ++ ['\'']) ++ rest) = ('\'' :: (spelled ++ ['\''])) :: others ↔
      rest.head? ≠ some '\'' ∧ (lexer r).scan .idle rest = others := by
  obtain ⟨hclose, hdoubled⟩ := r.string_doubled
  have hstart : (lexer r).start '\'' = .quoted r.string (.of '\'') := start_quote
  have hclosing (p : Part) : (lexer r).more (.quoted r.string p) '\'' = some (.closing r.string (p.push '\'')) := by
    simp [lexer, more, hclose, hdoubled]
  have hread : (lexer r).scan .idle ('\'' :: (spelled ++ ['\'']) ++ rest) =
      (lexer r).scan (.closing r.string ⟨'\'', spelled ++ ['\'']⟩) rest := by
    calc
      _ = (lexer r).scan ((lexer r).start '\'') (spelled ++ '\'' :: rest) := by
        rw [List.cons_append, List.append_assoc]
        exact Lexer.scan_idle_cons
      _ = (lexer r).scan (.quoted r.string ⟨'\'', spelled⟩) ('\'' :: rest) := by
        rw [hstart, scan_spelled h]
        rfl
      _ = _ := Lexer.scan_more (hclosing _)
  rw [hread]
  by_cases hrest : rest.head? = some '\''
  · simp only [hrest, ne_eq, not_true_eq_false, false_and, iff_false]
    intro hscan
    have hmore : more r (.closing r.string ⟨'\'', spelled ++ ['\'']⟩) '\'' =
        some (.quoted r.string ⟨'\'', spelled ++ ['\''] ++ ['\'']⟩) := by
      simp [more, hclose, Part.push]
    have hlonger : (lexer r).scan (.closing r.string ⟨'\'', spelled ++ ['\'']⟩) ('\'' :: rest.tail) =
        ['\'' :: (spelled ++ ['\''])] ++ others := by
      rw [List.cons_head?_tail hrest]
      exact hscan
    refine not_cut hmore (by decide) (fun run hop ↦ by cases hop) hlonger ?_
    simp [pieces, closed, last, Part.text]
  · have hends : (lexer r).scan (.closing r.string ⟨'\'', spelled ++ ['\'']⟩) rest =
        ('\'' :: (spelled ++ ['\''])) :: (lexer r).scan .idle rest := by
      refine Lexer.scan_of_ends fun c hc ↦ ?_
      have hne : c ≠ '\'' := fun heq ↦ hrest (heq ▸ hc)
      simp [lexer, more, hclose, hne]
    rw [hends]
    simp [hrest]

end Squaero.Lib.SqlScript
