import Squaero.Lib.Lexer
import Squaero.Lib.Text
import Mathlib.Data.List.Infix

/-!
# The lexical rules of SQL scripts

How an engine cuts a script into tokens, blanks and comments being tokens as well, so that nothing is
dropped. `Rules` says in what engines differ: quotes, comments, the characters of names and how a run of
operator characters falls into operators. A colon and a name behind it are one token, which the engine
would be given a value for.

A token is what an engine reads in one go: literals that are only concatenated later, as `'a' 'b'` is, are
tokens of their own, and so is a prefix of a literal unless it changes where the literal ends.
-/

namespace Squaero.Lib.SqlScript

/-- Up to which character a quoted text goes, whether a backslash escapes in it, and whether a doubled
closing character stays inside. -/
structure Quote where
  close : Char
  backslash : Bool
  doubled : Bool
  deriving DecidableEq, Repr

structure Rules where
  quotes : List (Char × Quote)
  /-- What changes the meaning of the quote behind it. -/
  prefixes : List (Text × Char × Quote)
  /-- What names start with besides letters and the underscore. -/
  sigils : List Char
  /-- What names go on with besides letters, digits and the underscore. -/
  extras : List Char
  operators : List Char
  /-- The operators that a run of operator characters is made of. -/
  split : Text → List Text
  /-- `--` starts a comment only before a blank. -/
  blankDashes : Bool
  /-- `#` starts a comment. -/
  hash : Bool
  /-- Block comments nest. -/
  nested : Bool
  /-- What is between `/*!` and `*/` is code. -/
  versions : Bool
  /-- `$tag$` quotes. -/
  dollars : Bool
  /-- `..` is an operator. -/
  ranges : Bool
  string : Quote
  string_quotes : quotes.lookup '\'' = some string
  string_doubled : string.close = '\'' ∧ string.doubled = true
  quotes_usual : ∀ q ∈ quotes, q.1 ∈ ['\'', '"', '`', '[', '{']
  prefixes_usual : ∀ p ∈ prefixes, p.1 ∈ [['e'], ['E'], ['@']]
  sigils_usual : ∀ c ∈ sigils, c ∈ ['@', '#', '$', '?']
  extras_usual : ∀ c ∈ extras, c ∈ ['@', '#', '$']
  operators_usual : ∀ c ∈ operators, c ∉ [':', '.', '\''] ∧ c.isDigit = false ∧ c.isAlpha = false
  minus_operator : '-' ∈ operators
  flatten_split : ∀ run, (split run).flatten = run
  split_ne : ∀ run, [] ∉ split run
  split_single : ∀ c, split [c] = [[c]]

/-- A text that is not empty. -/
structure Part where
  first : Char
  more : Text
  deriving DecidableEq, Repr

namespace Part

def of (c : Char) : Part := ⟨c, []⟩

def text (p : Part) : Text := p.first :: p.more

def push (p : Part) (c : Char) : Part := ⟨p.first, p.more ++ [c]⟩

@[simp]
theorem text_of (c : Char) : (of c).text = [c] := rfl

@[simp]
theorem text_push (p : Part) (c : Char) : (p.push c).text = p.text ++ [c] := rfl

theorem text_ne (p : Part) : p.text ≠ [] := List.cons_ne_nil _ _

end Part

/-- What has been read of a number. -/
inductive Stage
  | whole
  | fraction
  /-- A sign may follow. -/
  | exponent
  | tail
  deriving DecidableEq, Repr

inductive Mode
  | idle
  /-- Nothing goes on with it. -/
  | done (ops : Text) (p : Part)
  | word (p : Part)
  | colon
  | dot
  | num (stage : Stage) (p : Part)
  /-- A whole number and a dot. -/
  | pointed (digits : Part)
  /-- A whole number and two dots. -/
  | range (digits : Part)
  | op (run : Part)
  | line (ops : Text) (p : Part)
  | block (ops : Text) (p : Part) (depth : ℕ) (last : Option Char)
  /-- The opening of a comment whose content is code. -/
  | version (ops : Text) (p : Part)
  | quoted (q : Quote) (p : Part)
  | escaped (q : Quote) (p : Part)
  /-- Behind a closing character, which may turn out to be the first of two. -/
  | closing (q : Quote) (p : Part)
  | dollar (p : Part)
  | body (tag : Text) (p : Part)
  deriving DecidableEq, Repr

section

variable (r : Rules)

def isWord (c : Char) : Bool := isWordChar c || c.isDigit || isWide c || c ∈ r.extras

def startsWord (c : Char) : Bool := isWordChar c || isWide c || c ∈ r.sigils

/-- A character that belongs to no token before it. -/
def start (c : Char) : Mode :=
  if isSpace c then .done [] (.of c)
  else
    match r.quotes.lookup c with
    | some q => .quoted q (.of c)
    | none =>
      if c = '#' ∧ r.hash then .line [] (.of c)
      else if c = '$' ∧ r.dollars then .dollar (.of c)
      else if startsWord r c then .word (.of c)
      else if c.isDigit then .num .whole (.of c)
      else if c = '.' then .dot
      else if c = ':' then .colon
      else if c ∈ r.operators then .op (.of c)
      else .done [] (.of c)

/-- A number goes on with digits, one dot and one exponent, and with whatever cannot end it. -/
def moreNumber (stage : Stage) (p : Part) (c : Char) : Option Mode :=
  match stage with
  | .whole =>
    if c.isDigit then some (.num .whole (p.push c))
    else if c = '.' then some (.pointed p)
    else if c = 'e' ∨ c = 'E' then some (.num .exponent (p.push c))
    else if isWord r c then some (.num .tail (p.push c))
    else none
  | .fraction =>
    if c.isDigit then some (.num .fraction (p.push c))
    else if c = 'e' ∨ c = 'E' then some (.num .exponent (p.push c))
    else if isWord r c then some (.num .tail (p.push c))
    else none
  | .exponent => if c = '+' ∨ c = '-' ∨ isWord r c then some (.num .tail (p.push c)) else none
  | .tail => if isWord r c then some (.num .tail (p.push c)) else none

def morePointed (digits : Part) (c : Char) : Option Mode :=
  if c.isDigit then some (.num .fraction ((digits.push '.').push c))
  else if c = '.' ∧ r.ranges then some (.range digits)
  else if c = 'e' ∨ c = 'E' then some (.num .exponent ((digits.push '.').push c))
  else if isWord r c then some (.num .tail ((digits.push '.').push c))
  else none

/-- A run of operator characters goes on up to a comment. -/
def moreOperator (run : Part) (c : Char) : Option Mode :=
  let last := run.text.getLast?
  if last = some '/' ∧ c = '*' then some (.block run.text.dropLast ⟨'/', ['*']⟩ 1 none)
  else if last = some '-' ∧ c = '-' ∧ !r.blankDashes then some (.line run.text.dropLast ⟨'-', ['-']⟩)
  else if ['-', '-'].isSuffixOf run.text ∧ isSpace c ∧ r.blankDashes then
    some (if c = '\n' then .done run.text.dropLast.dropLast ⟨'-', ['-', c]⟩
      else .line run.text.dropLast.dropLast ⟨'-', ['-', c]⟩)
  else if c ∈ r.operators then some (.op (run.push c))
  else none

def moreBlock (ops : Text) (p : Part) (depth : ℕ) (last : Option Char) (c : Char) : Mode :=
  if last = some '*' ∧ c = '/' then
    if depth ≤ 1 then .done ops (p.push c) else .block ops (p.push c) (depth - 1) none
  else if last = some '/' ∧ c = '*' ∧ r.nested then .block ops (p.push c) (depth + 1) none
  else if p.text = ['/', '*'] ∧ c = '!' ∧ r.versions then .version ops (p.push c)
  else .block ops (p.push c) depth (some c)

/-- The mode behind a character that goes on with what is pending. -/
def more : Mode → Char → Option Mode
  | .idle, _ => none
  | .done _ _, _ => none
  | .range _, _ => none
  | .word p, c =>
    if isWord r c then some (.word (p.push c))
    else (r.prefixes.find? fun x ↦ x.1 = p.text ∧ x.2.1 = c).map fun x ↦ .quoted x.2.2 (p.push c)
  | .colon, c =>
    if c = ':' ∨ c = '=' then some (.done [] ⟨':', [c]⟩)
    else if isWordChar c ∨ isWide c then some (.word ⟨':', [c]⟩)
    else none
  | .dot, c =>
    if c.isDigit then some (.num .fraction ⟨'.', [c]⟩)
    else if c = '.' ∧ r.ranges then some (.done [] ⟨'.', [c]⟩)
    else none
  | .num stage p, c => moreNumber r stage p c
  | .pointed digits, c => morePointed r digits c
  | .op run, c => moreOperator r run c
  | .line ops p, c => if c = '\n' then none else some (.line ops (p.push c))
  | .block ops p depth last, c => some (moreBlock r ops p depth last c)
  | .version ops p, c => if c.isDigit then some (.version ops (p.push c)) else none
  | .quoted q p, c =>
    some (if c = q.close then if q.doubled then .closing q (p.push c) else .done [] (p.push c)
      else if c = '\\' ∧ q.backslash then .escaped q (p.push c)
      else .quoted q (p.push c))
  | .escaped q p, c => some (.quoted q (p.push c))
  | .closing q p, c => if c = q.close then some (.quoted q (p.push c)) else none
  | .dollar p, c =>
    if c = '$' then some (.body (p.push c).text (p.push c))
    else if c.isDigit ∧ p.text = ['$'] then some (.num .tail (p.push c))
    else if isWord r c then some (.dollar (p.push c))
    else none
  | .body tag p, c =>
    let p := p.push c
    some (if tag.isSuffixOf p.text ∧ 2 * tag.length ≤ p.text.length then .done [] p else .body tag p)

/-- The tokens that are complete before the last one that is pending. -/
def closed : Mode → List Text
  | .done ops _ | .line ops _ | .block ops _ _ _ | .version ops _ => r.split ops
  | .range digits => [digits.text]
  | _ => []

/-- The last token that is pending. -/
def last : Mode → Text
  | .idle => []
  | .done _ p | .line _ p | .block _ p _ _ | .version _ p => p.text
  | .word p | .num _ p | .op p | .quoted _ p | .escaped _ p | .closing _ p | .dollar p | .body _ p => p.text
  | .colon => [':']
  | .dot => ['.']
  | .pointed digits => digits.text ++ ['.']
  | .range _ => ['.', '.']

/-- The tokens that are pending. -/
def pieces : Mode → List Text
  | .idle => []
  | .op run => r.split run.text
  | m => closed r m ++ [last m]

end

variable {r : Rules} {m m' : Mode} {c : Char}

/-- One token is pending that what follows may go on with but not cut up. -/
def Mode.isSteady : Mode → Bool
  | .idle | .op _ | .range _ => false
  | _ => true

theorem pieces_steady (h : m.isSteady = true) : pieces r m = closed r m ++ [last m] := by
  cases m <;> first | rfl | exact absurd h nofun

theorem last_ne (h : m.isSteady = true) : last m ≠ [] := by
  cases m with
  | idle => exact absurd h nofun
  | op run => exact absurd h nofun
  | range digits => exact absurd h nofun
  | pointed digits => exact List.append_ne_nil_of_right_ne_nil _ (List.cons_ne_nil _ _)
  | _ => exact List.cons_ne_nil _ _

theorem split_nil (r : Rules) : r.split [] = [] := by
  have hflat := r.flatten_split []
  have hne := r.split_ne []
  cases hsplit : r.split [] with
  | nil => rfl
  | cons t ts =>
    rw [hsplit] at hflat hne
    have ht : t = [] := (List.append_eq_nil_iff.mp hflat).1
    exact absurd (ht ▸ List.mem_cons_self) hne

/-- The last pending token gets longer. -/
structure Pushes (r : Rules) (m : Mode) (c : Char) (m' : Mode) : Prop where
  steady : m.isSteady = true
  steady' : m'.isSteady = true
  closed : closed r m' = closed r m
  last : last m' = last m ++ [c]

/-- A comment starts in a run of operator characters. -/
structure OpensComment (r : Rules) (run : Part) (c : Char) (m' : Mode) : Prop where
  steady : m'.isSteady = true
  opening : ∃ ops begun, run.text = ops ++ begun ∧ begun ≠ [] ∧ closed r m' = r.split ops ∧ last m' = begun ++ [c]

/-- What a character can do that goes on with what is pending. -/
inductive Goes (r : Rules) (m : Mode) (c : Char) (m' : Mode) : Prop
  | pushes (h : Pushes r m c m')
  | ranges {digits : Part} (hm : m = .pointed digits) (hc : c = '.') (hm' : m' = .range digits)
  | operator {run : Part} (hm : m = .op run) (hc : c ∈ r.operators) (hm' : m' = .op (run.push c))
  | comment {run : Part} (hm : m = .op run) (h : OpensComment r run c m')

theorem goes_operator {run : Part} (h : moreOperator r run c = some m') : Goes r (.op run) c m' := by
  have hlast {x : Char} (h : run.text.getLast? = some x) : run.text = run.text.dropLast ++ [x] :=
    (List.dropLast_append_getLast? _ h).symm
  unfold moreOperator at h
  dsimp only at h
  have hdashes (h : ['-', '-'].isSuffixOf run.text = true) :
      run.text = run.text.dropLast.dropLast ++ ['-', '-'] := by
    obtain ⟨ops, hops⟩ := List.isSuffixOf_iff_suffix.mp h
    simp [← hops, List.dropLast_append_of_ne_nil]
  split_ifs at h with hblock hline hdash hnewline hoperator
  · obtain rfl := Option.some.inj h
    exact .comment rfl ⟨rfl, _, _, hlast hblock.1, List.cons_ne_nil _ _, rfl, by simp [last, Part.text, hblock.2]⟩
  · obtain rfl := Option.some.inj h
    exact .comment rfl ⟨rfl, _, _, hlast hline.1, List.cons_ne_nil _ _, rfl, by simp [last, Part.text, hline.2.1]⟩
  · obtain rfl := Option.some.inj h
    exact .comment rfl ⟨rfl, _, _, hdashes hdash.1, List.cons_ne_nil _ _, rfl, rfl⟩
  · obtain rfl := Option.some.inj h
    exact .comment rfl ⟨rfl, _, _, hdashes hdash.1, List.cons_ne_nil _ _, rfl, rfl⟩
  · obtain rfl := Option.some.inj h
    exact .operator rfl hoperator rfl

theorem goes_number {stage : Stage} {p : Part} (h : moreNumber r stage p c = some m') :
    Goes r (.num stage p) c m' := by
  have hnum (stage' : Stage) : Pushes r (.num stage p) c (.num stage' (p.push c)) := ⟨rfl, rfl, rfl, rfl⟩
  have hpointed (hc : c = '.') : Pushes r (.num stage p) c (.pointed p) := ⟨rfl, rfl, rfl, by rw [hc]; rfl⟩
  unfold moreNumber at h
  cases stage with
  | whole =>
    dsimp only at h
    split_ifs at h with hdigit hdot
    · exact .pushes (Option.some.inj h ▸ hnum _)
    · exact .pushes (Option.some.inj h ▸ hpointed hdot)
    · exact .pushes (Option.some.inj h ▸ hnum _)
    · exact .pushes (Option.some.inj h ▸ hnum _)
  | fraction =>
    dsimp only at h
    split_ifs at h <;> exact .pushes (Option.some.inj h ▸ hnum _)
  | exponent =>
    dsimp only at h
    split_ifs at h
    exact .pushes (Option.some.inj h ▸ hnum _)
  | tail =>
    dsimp only at h
    split_ifs at h
    exact .pushes (Option.some.inj h ▸ hnum _)

theorem goes_pointed {digits : Part} (h : morePointed r digits c = some m') : Goes r (.pointed digits) c m' := by
  have hnum (stage : Stage) : Pushes r (.pointed digits) c (.num stage ((digits.push '.').push c)) :=
    ⟨rfl, rfl, rfl, by simp [last]⟩
  unfold morePointed at h
  split_ifs at h with hdigit hdot
  · exact .pushes (Option.some.inj h ▸ hnum _)
  · exact .ranges rfl hdot.1 (Option.some.inj h).symm
  · exact .pushes (Option.some.inj h ▸ hnum _)
  · exact .pushes (Option.some.inj h ▸ hnum _)

/-- What a character does that goes on. -/
theorem goes_of_more (h : more r m c = some m') : Goes r m c m' := by
  cases m with
  | idle => exact absurd h nofun
  | done ops p => exact absurd h nofun
  | range digits => exact absurd h nofun
  | num stage p => exact goes_number h
  | pointed digits => exact goes_pointed h
  | op run => exact goes_operator h
  | word p =>
    rw [more] at h
    split_ifs at h
    · obtain rfl := Option.some.inj h
      exact .pushes ⟨rfl, rfl, rfl, rfl⟩
    · obtain ⟨x, -, rfl⟩ := Option.map_eq_some_iff.mp h
      exact .pushes ⟨rfl, rfl, rfl, rfl⟩
  | colon =>
    rw [more] at h
    split_ifs at h <;> obtain rfl := Option.some.inj h
    · exact .pushes ⟨rfl, rfl, split_nil r, rfl⟩
    · exact .pushes ⟨rfl, rfl, rfl, rfl⟩
  | dot =>
    rw [more] at h
    split_ifs at h <;> obtain rfl := Option.some.inj h
    · exact .pushes ⟨rfl, rfl, rfl, rfl⟩
    · exact .pushes ⟨rfl, rfl, split_nil r, rfl⟩
  | line ops p =>
    rw [more] at h
    split_ifs at h
    obtain rfl := Option.some.inj h
    exact .pushes ⟨rfl, rfl, rfl, rfl⟩
  | block ops p depth before =>
    obtain rfl := Option.some.inj h
    unfold moreBlock
    split_ifs <;> exact .pushes ⟨rfl, rfl, rfl, rfl⟩
  | version ops p =>
    rw [more] at h
    split_ifs at h
    obtain rfl := Option.some.inj h
    exact .pushes ⟨rfl, rfl, rfl, rfl⟩
  | quoted q p =>
    obtain rfl := Option.some.inj h
    split_ifs
    · exact .pushes ⟨rfl, rfl, rfl, rfl⟩
    · exact .pushes ⟨rfl, rfl, split_nil r, rfl⟩
    · exact .pushes ⟨rfl, rfl, rfl, rfl⟩
    · exact .pushes ⟨rfl, rfl, rfl, rfl⟩
  | escaped q p =>
    obtain rfl := Option.some.inj h
    exact .pushes ⟨rfl, rfl, rfl, rfl⟩
  | closing q p =>
    rw [more] at h
    split_ifs at h
    obtain rfl := Option.some.inj h
    exact .pushes ⟨rfl, rfl, rfl, rfl⟩
  | dollar p =>
    rw [more] at h
    split_ifs at h <;> obtain rfl := Option.some.inj h <;> exact .pushes ⟨rfl, rfl, rfl, rfl⟩
  | body tag p =>
    obtain rfl := Option.some.inj h
    split_ifs
    · exact .pushes ⟨rfl, rfl, split_nil r, rfl⟩
    · exact .pushes ⟨rfl, rfl, rfl, rfl⟩

theorem flatten_start (c : Char) : (pieces r (start r c)).flatten = [c] := by
  unfold start
  split
  · simp [pieces, closed, last, split_nil]
  · split
    · simp [pieces, closed, last]
    · split_ifs <;> simp_all [pieces, closed, last, split_nil, r.flatten_split]

theorem flatten_more (h : more r m c = some m') : (pieces r m').flatten = (pieces r m).flatten ++ [c] := by
  cases goes_of_more h with
  | pushes h =>
    rw [pieces_steady h.steady, pieces_steady h.steady', h.closed, h.last]
    simp
  | ranges hm hc hm' =>
    subst hm hc hm'
    simp [pieces, closed, last]
  | operator hm hc hm' =>
    subst hm hm'
    simp [pieces, r.flatten_split]
  | comment hm hopens =>
    obtain ⟨ops, begun, hrun, -, hclosed, hlast⟩ := hopens.opening
    subst hm
    rw [pieces_steady hopens.steady, hclosed, hlast]
    simp [pieces, r.flatten_split, hrun]

/-- The lexer of an engine. -/
def lexer (r : Rules) : Lexer Char Mode where
  idle := .idle
  start := start r
  more := more r
  pieces := pieces r
  more_idle _ := rfl
  pieces_idle := rfl
  flatten_start := flatten_start
  flatten_more _ _ _ := flatten_more

/-! ## What a pending token becomes -/

/-- Some token is pending, and it is not a run of operators. -/
def Mode.holds : Mode → Bool
  | .idle | .op _ => false
  | _ => true

theorem holds_steady (h : m.isSteady = true) : m.holds = true := by
  cases m with
  | range digits => exact absurd h nofun
  | _ => exact h

/-- What stays of the pending tokens whatever follows: complete ones and how the next one begins. -/
def kept (r : Rules) : Mode → List Text × Text
  | .pointed digits | .range digits => ([], digits.text)
  | m => (closed r m, last m)

theorem kept_steady (h : m.isSteady = true) :
    (kept r m).1 = closed r m ∧ (kept r m).2 <+: last m ∧ (last m).dropLast <+: (kept r m).2 := by
  have hself (l : Text) : l <+: l ∧ l.dropLast <+: l := ⟨List.prefix_rfl, List.dropLast_prefix l⟩
  cases m with
  | idle => exact absurd h nofun
  | op run => exact absurd h nofun
  | range digits => exact absurd h nofun
  | pointed digits => exact ⟨rfl, List.prefix_append _ _, by simp [kept, last]⟩
  | _ => exact ⟨rfl, hself _⟩

theorem pieces_kept (h : m.holds = true) :
    ∃ t ts, pieces r m = (kept r m).1 ++ t :: ts ∧ (kept r m).2 <+: t := by
  cases m with
  | idle => exact absurd h nofun
  | op run => exact absurd h nofun
  | range digits => exact ⟨_, _, rfl, List.prefix_rfl⟩
  | pointed digits => exact ⟨_, _, rfl, List.prefix_append _ _⟩
  | _ => exact ⟨_, _, rfl, List.prefix_rfl⟩

theorem kept_more (h : m.holds = true) (hmore : more r m c = some m') :
    m'.holds = true ∧ (kept r m').1 = (kept r m).1 ∧ (kept r m).2 <+: (kept r m').2 := by
  cases goes_of_more hmore with
  | pushes hpushes =>
    obtain ⟨hclosed, hkeeps, -⟩ := kept_steady (r := r) hpushes.steady
    obtain ⟨hclosed', -, hlast⟩ := kept_steady (r := r) hpushes.steady'
    rw [hpushes.last, List.dropLast_concat] at hlast
    refine ⟨?_, by rw [hclosed, hclosed', hpushes.closed], hkeeps.trans hlast⟩
    exact holds_steady hpushes.steady'
  | ranges hm hc hm' =>
    subst hm hm'
    exact ⟨rfl, rfl, List.prefix_rfl⟩
  | operator hm hc hm' =>
    subst hm
    exact absurd h nofun
  | comment hm hopens =>
    subst hm
    exact absurd h nofun

theorem scan_kept (h : m.holds = true) (text : Text) :
    ∃ t ts, (lexer r).scan m text = (kept r m).1 ++ t :: ts ∧ (kept r m).2 <+: t := by
  induction text generalizing m with
  | nil => exact pieces_kept h
  | cons c rest ih =>
    cases hmore : (lexer r).more m c with
    | none =>
      obtain ⟨t, ts, hpieces, ht⟩ := pieces_kept (r := r) h
      refine ⟨t, ts ++ (lexer r).scan .idle (c :: rest), ?_, ht⟩
      calc
        (lexer r).scan m (c :: rest) = pieces r m ++ (lexer r).scan .idle (c :: rest) := Lexer.scan_cut hmore
        _ = _ := by rw [hpieces, List.append_assoc, List.cons_append]
    | some m' =>
      obtain ⟨hholds, hclosed, hkeeps⟩ := kept_more h hmore
      obtain ⟨t, ts, hscan, ht⟩ := ih hholds
      rw [Lexer.scan_more hmore]
      exact ⟨t, ts, by rw [hscan, hclosed], hkeeps.trans ht⟩

/-- Where a character goes on with a token, no token ends before it. -/
theorem not_cut (hmore : more r m c = some m') (hc : c ≠ '.') (hop : ∀ run, m' ≠ .op run) {text : Text}
    {before after : List Text} (hscan : (lexer r).scan m (c :: text) = before ++ after) :
    before.flatten ≠ (pieces r m).flatten := by
  intro hflat
  have hmore' : (lexer r).more m c = some m' := hmore
  rw [Lexer.scan_more hmore'] at hscan
  -- the last pending token and the character
  obtain ⟨hsteady, begun, hbegun, hpieces, hlast⟩ : m'.isSteady = true ∧ ∃ begun, begun ≠ [] ∧
      (pieces r m).flatten = (closed r m').flatten ++ begun ∧ last m' = begun ++ [c] := by
    cases goes_of_more hmore with
    | pushes h =>
      refine ⟨h.steady', last m, ?_, ?_, h.last⟩
      · exact last_ne h.steady
      · rw [pieces_steady h.steady, h.closed]
        simp
    | ranges hm hc' hm' => exact absurd hc' hc
    | operator hm hc' hm' => exact absurd hm' (hop _)
    | comment hm h =>
      obtain ⟨ops, begun, hrun, hbegun, hclosed, hlast⟩ := h.opening
      refine ⟨h.steady, begun, hbegun, ?_, hlast⟩
      subst hm
      rw [hclosed, r.flatten_split, ← hrun]
      exact r.flatten_split _
  have hkept : (kept r m').2 = last m' := by
    cases m' with
    | pointed digits =>
      rw [last] at hlast
      exact absurd (List.append_inj' hlast rfl).2 (by simpa [eq_comm] using hc)
    | range digits => exact absurd hsteady nofun
    | _ => rfl
  obtain ⟨t, ts, hread, ht⟩ := scan_kept (r := r) (holds_steady hsteady) text
  rw [(kept_steady hsteady).1] at hread
  rw [hkept, hlast] at ht
  have hlength := not_boundary (hread.symm.trans hscan) (hflat.trans hpieces) hbegun
  have hkeeps := ht.length_le
  rw [List.length_append, List.length_singleton] at hkeeps
  omega

end Squaero.Lib.SqlScript
