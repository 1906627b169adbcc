import Squaero.Front.SchemaDiff
import Squaero.Lib.Patterns
import Squaero.Lib.QualifiedName

/-!
# Applying an edited view

`utils/viewEdit.ts` turns the text of a view into the statements that replace the view, and into the text that is shown
for it. Engines without `CREATE OR REPLACE` get a `DROP VIEW` of the name that a regular expression finds in the text.
-/

namespace Squaero.Front.ViewApply

open Squaero.Lib Backtrack QualifiedName
open Gate.SafeMode (isRegexWord)

/-! ## Source -/

def orReplaceEngines : List Text :=
  ["mysql".toList, "mariadb".toList, "postgres".toList, "postgresql".toList, "oracle".toList]

/-- `[^;]*;\s*` -/
def throughSemicolon : Reader Text := fun text ↦
  match text.dropWhile (· ≠ ';') with
  | [] => none
  | _ :: rest => some (rest.dropWhile isJsSpace)

/-- `^drop\s+view\s+(?:if\s+exists\s+)?[^;]*;\s*` -/
def leadingDrop : Reader Text :=
  word "drop".toList <| spaces <| word "view".toList <| spaces <|
    optional (fun next ↦ word "if".toList <| spaces <| word "exists".toList <| spaces next) throughSemicolon

/-- The text without a leading drop and without a final semicolon. -/
def statementOf (ddl : Text) : Text :=
  let text := jsTrim ddl
  Schemas.withoutSemicolon (jsTrim ((leadingDrop text).getD text))

/-- `/^\s*create\b[\s\S]*?\bview\b/i` -/
def isViewText (stmt : Text) : Bool :=
  let text := stmt.dropWhile isJsSpace
  wordHere "create".toList none text &&
    occursAfter isRegexWord "view".toList (some 'e') ((text.drop 6).map Char.toLower)

/-- `/^\s*create\s+or\s+replace\b/i` -/
def isOrReplace (stmt : Text) : Bool :=
  let boundary : Reader Unit := fun rest ↦ if rest.head?.any isRegexWord then none else some ()
  (word "create".toList (spaces <| word "or".toList <| spaces <| word "replace".toList boundary)
    (stmt.dropWhile isJsSpace)).isSome

/-- `.replace(/^(\s*)create\b/i, "$1CREATE OR REPLACE")` -/
def withOrReplace (stmt : Text) : Text :=
  let text := stmt.dropWhile isJsSpace
  if wordHere "create".toList none text then
    stmt.takeWhile isJsSpace ++ "CREATE OR REPLACE".toList ++ text.drop 6
  else stmt

/-- `\s+as[\s(]` -/
def asFollows (text : Text) : Bool :=
  (spaces (word "as".toList fun rest ↦ if rest.head?.any fun c ↦ isJsSpace c || c = '(' then some () else none)
    text).isSome

/-- `if\s+not\s+exists\s+` -/
def ifNotExists (next : Reader Text) : Reader Text :=
  word "if".toList <| spaces <| word "not".toList <| spaces <| word "exists".toList <| spaces next

/-- `create\s+view\s+(?:if\s+not\s+exists\s+)?([\s\S]+?)\s+as[\s(]` at the start of a text, and the group. -/
def phrase : Reader Text :=
  word "create".toList <| spaces <| word "view".toList <| spaces <| optional ifNotExists (shortest asFollows)

def nameIn (stmt fallbackName : Text) : Text := ((search phrase stmt).map jsTrim).getD fallbackName

def dropView (name : Text) : Text := "DROP VIEW IF EXISTS ".toList ++ name

def buildViewApply (engine ddl fallbackName : Text) : Except Text (List Text) :=
  let stmt := statementOf ddl
  if !isViewText stmt then .error "El texto no parece una definición de vista (CREATE … VIEW).".toList
  else if jsLower engine ∈ orReplaceEngines then
    .ok [if isOrReplace stmt then stmt else withOrReplace stmt]
  else .ok [dropView (nameIn stmt fallbackName), stmt]

def runnableViewDdl (engine ddl fallbackName : Text) : Text :=
  match buildViewApply engine ddl fallbackName with
  | .ok statements => ";\n\n".toList.intercalate statements ++ [';']
  | .error _ => ddl

/-! ## Views -/

/-- What may stand between words: blanks and comments. -/
inductive Sep : Text → Prop
  | nil : Sep []
  | blank {c : Char} {rest : Text} (hc : isJsSpace c = true) (hrest : Sep rest) : Sep (c :: rest)
  | line {body rest : Text} (hrest : Sep rest) : Sep ("--".toList ++ body ++ '\n' :: rest)
  | block {body rest : Text} (hrest : Sep rest) : Sep ("/*".toList ++ body ++ "*/".toList ++ rest)

/-- `IF NOT EXISTS` with what stands behind each word. -/
structure Guard where
  ifWord : Text
  afterIf : Text
  notWord : Text
  afterNot : Text
  existsWord : Text
  afterExists : Text

def Guard.text (g : Guard) : Text :=
  g.ifWord ++ (g.afterIf ++ (g.notWord ++ (g.afterNot ++ (g.existsWord ++ g.afterExists))))

structure Guard.Ok (g : Guard) : Prop where
  ifWord_ok : Spells "if".toList g.ifWord
  afterIf_ok : Sep g.afterIf ∧ g.afterIf ≠ []
  notWord_ok : Spells "not".toList g.notWord
  afterNot_ok : Sep g.afterNot ∧ g.afterNot ≠ []
  existsWord_ok : Spells "exists".toList g.existsWord
  afterExists_ok : Sep g.afterExists

/-- The text of one `CREATE VIEW`, in pieces. -/
structure CreateView where
  lead : Text
  createWord : Text
  afterCreate : Text
  /-- Words such as `TEMP`, with what stands behind each. -/
  modifiers : List (Text × Text)
  viewWord : Text
  afterView : Text
  guard : Option Guard
  name : Text
  /-- The list of columns in its parentheses, with what stands in front of it. -/
  columns : Option (Text × Text)
  beforeAs : Text
  asWord : Text
  body : Text
  /-- A semicolon and blanks, or blanks alone. -/
  close : Text

namespace CreateView

def guardText (v : CreateView) : Text := (v.guard.map Guard.text).getD []

/-- The statement behind the name. -/
def rest (v : CreateView) : Text :=
  ((v.columns.map fun c ↦ c.1 ++ c.2).getD []) ++ (v.beforeAs ++ (v.asWord ++ v.body))

def statement (v : CreateView) : Text :=
  v.createWord ++ (v.afterCreate ++ ((v.modifiers.flatMap fun m ↦ m.1 ++ m.2) ++
    (v.viewWord ++ (v.afterView ++ (v.guardText ++ (v.name ++ v.rest))))))

def text (v : CreateView) : Text := v.lead ++ (v.statement ++ v.close)

/-- Where two words would touch, something stands between them. -/
def Apart (sep next : Text) : Prop := sep ≠ [] ∨ next.head?.any QualifiedName.isBare = false

structure Ok (v : CreateView) : Prop where
  lead_ok : Sep v.lead
  createWord_ok : Spells "create".toList v.createWord
  afterCreate_ok : Sep v.afterCreate ∧ v.afterCreate ≠ []
  modifiers_ok : ∀ m ∈ v.modifiers, (m.1 ≠ [] ∧ (∀ c ∈ m.1, QualifiedName.isBare c = true) ∧ ¬Spells "view".toList m.1) ∧
    Sep m.2 ∧ m.2 ≠ []
  viewWord_ok : Spells "view".toList v.viewWord
  afterView_ok : Sep v.afterView ∧ Apart v.afterView (v.guardText ++ v.name)
  guard_ok : ∀ g, v.guard = some g → g.Ok ∧ Apart g.afterExists v.name
  name_ok : (read v.name).isSome = true
  name_ends : v.name.head?.any isJsSpace = false ∧ v.name.getLast?.any isJsSpace = false
  columns_ok : ∀ c, v.columns = some c → Sep c.1 ∧ ∃ inner, c.2 = '(' :: inner
  beforeAs_ok : Sep v.beforeAs ∧ (v.columns = none → v.beforeAs ≠ [] ∨ v.name.getLast?.any QualifiedName.isBare = false)
  asWord_ok : Spells "as".toList v.asWord
  close_ok : (∃ blanks, Blank blanks ∧ v.close = ';' :: blanks) ∨
    Blank v.close ∧ ∃ c, v.body.getLast? = some c ∧ isJsSpace c = false ∧ c ≠ ';'

end CreateView

/-! ## What is wanted -/

/-- A text that names the view of another, for an engine that tells names apart by `fold`. -/
def Names (fold : Text → Text) (name view : Text) : Prop :=
  ∃ parts, read name = some parts ∧ (read view).map (·.map fold) = some (parts.map fold)

/-- The drop of exactly the view that is created, and the statement that creates it. -/
def Replaces (fold : Text → Text) (engine : Text) (v : CreateView) (fallbackName : Text) : Prop :=
  ∃ name, Names fold name v.name ∧ buildViewApply engine v.text fallbackName = .ok [dropView name, v.statement]

/-- What is shown is applied like the text it is made of, and shown as it is. -/
def RoundTrips (engine ddl fallbackName : Text) : Prop :=
  buildViewApply engine (runnableViewDdl engine ddl fallbackName) fallbackName = buildViewApply engine ddl fallbackName ∧
    runnableViewDdl engine (runnableViewDdl engine ddl fallbackName) fallbackName =
      runnableViewDdl engine ddl fallbackName

namespace CreateView

/-- Blanks alone between the words up to `AS`, no list of columns, and no `as` between blanks in the name. -/
structure Plain (v : CreateView) : Prop where
  afterCreate_blank : Blank v.afterCreate
  modifiers_eq : v.modifiers = []
  afterView_blank : Blank v.afterView ∧ v.afterView ≠ []
  guard_blank : ∀ g, v.guard = some g → Blank g.afterIf ∧ Blank g.afterNot ∧ Blank g.afterExists ∧ g.afterExists ≠ []
  uncut : ∀ before after, v.name = before ++ after → before ≠ [] → after ≠ [] → asFollows (after ++ v.rest) = false
  columns_eq : v.columns = none
  beforeAs_blank : Blank v.beforeAs ∧ v.beforeAs ≠ []
  body_starts : v.body.head?.any (fun c ↦ isJsSpace c || c = '(') = true

/-- The statement begins with `create view … as` as it is looked for. -/
def Begins (v : CreateView) : Prop := (phrase v.statement).isSome = true

/-- The name where the statement does not begin so: from a place further on, or from the caller. -/
def borrowed (v : CreateView) (fallbackName : Text) : Text := nameIn v.statement.tail fallbackName

end CreateView

/-! ## Statements -/

theorem jsTrim_pad {front t back : Text} (hfront : Blank front) (hback : Blank back)
    (hhead : t.head?.any isJsSpace = false) (hlast : t.getLast?.any isJsSpace = false) :
    jsTrim (front ++ (t ++ back)) = t := by
  have hend : jsTrimEnd (t ++ back) = t := by
    have hreverse : ∀ c ∈ back.reverse, isJsSpace c = true := fun c hc ↦ hback c (List.mem_reverse.mp hc)
    unfold jsTrimEnd List.rdropWhile
    rw [List.reverse_append, List.dropWhile_append_of_pos hreverse]
    rw [← List.head?_reverse] at hlast
    cases hr : t.reverse with
    | nil => rw [List.reverse_eq_nil_iff.mp hr]; rfl
    | cons c more =>
      rw [hr] at hlast
      have hc : ¬isJsSpace c = true := Bool.eq_false_iff.mp hlast
      rw [List.dropWhile_cons_of_neg hc, ← hr, List.reverse_reverse]
  have hstart : jsTrimStart (front ++ (t ++ back)) = jsTrimStart (t ++ back) :=
    List.dropWhile_append_of_pos hfront
  cases t with
  | nil =>
    have hnone : jsTrimStart ([] ++ back) = [] := List.dropWhile_eq_nil_iff.mpr hback
    rw [jsTrim, hstart, hnone]
    rfl
  | cons c t =>
    have hc : ¬isJsSpace c = true := Bool.eq_false_iff.mp hhead
    have hkeep : jsTrimStart (c :: t ++ back) = c :: t ++ back := List.dropWhile_cons_of_neg hc
    rw [jsTrim, hstart, hkeep, hend]

theorem jsTrim_self {t : Text} (hhead : t.head?.any isJsSpace = false) (hlast : t.getLast?.any isJsSpace = false) :
    jsTrim t = t := by
  have h := jsTrim_pad blank_nil blank_nil hhead hlast
  rwa [List.append_nil, List.nil_append] at h

theorem withoutSemicolon_concat (t : Text) : Schemas.withoutSemicolon (t ++ [';']) = t := by
  have hbody : (t ++ [';']).rdropWhile isJsSpace = t ++ [';'] := List.rdropWhile_concat_neg _ _ _ (by decide)
  rw [Schemas.withoutSemicolon, hbody, if_pos List.getLast?_concat, List.dropLast_concat]

theorem withoutSemicolon_of_last {t : Text} {c : Char} (h : t.getLast? = some c) (hc : isJsSpace c = false)
    (hne : c ≠ ';') : Schemas.withoutSemicolon t = t := by
  obtain ⟨init, rfl⟩ := List.getLast?_eq_some_iff.mp h
  have hbody : (init ++ [c]).rdropWhile isJsSpace = init ++ [c] :=
    List.rdropWhile_concat_neg _ _ _ (Bool.eq_false_iff.mp hc)
  rw [Schemas.withoutSemicolon, hbody, if_neg]
  rw [List.getLast?_concat, Option.some.injEq]
  exact hne

theorem withoutSemicolon_isPrefix_self (t : Text) : Schemas.withoutSemicolon t <+: t := by
  unfold Schemas.withoutSemicolon
  dsimp only
  split_ifs
  · exact (List.dropLast_prefix _).trans (List.rdropWhile_prefix _ _)
  · exact List.prefix_rfl

theorem leadingDrop_eq_none {t : Text} (h : t.head?.any (fun c ↦ c.toLower = 'd') = false) : leadingDrop t = none := by
  refine if_neg fun hprefix ↦ ?_
  cases t with
  | nil => cases hprefix
  | cons c t =>
    obtain ⟨more, hmore⟩ := List.isPrefixOf_iff_prefix.mp hprefix
    have hd : 'd' = c.toLower := (List.cons_eq_cons.mp hmore).1
    simp [← hd] at h

theorem not_comment {c d : Char} (h : c.toLower = d) (hd : d.isAlpha = true) : c ≠ '-' ∧ c ≠ '/' := by
  have halpha := isAlpha_of_toLower (h ▸ hd)
  constructor
  · rintro rfl
    exact absurd halpha (by decide)
  · rintro rfl
    exact absurd halpha (by decide)

/-- A text that begins with `create`. -/
def BeginsCreate (t : Text) : Prop := ∃ created rest, t = created ++ rest ∧ Spells "create".toList created

theorem BeginsCreate.head {t : Text} (h : BeginsCreate t) : ∃ c more, t = c :: more ∧ c.toLower = 'c' := by
  obtain ⟨created, rest, rfl, hcreated⟩ := h
  obtain ⟨c, more, rfl, hc, -⟩ := List.map_eq_cons_iff.mp hcreated
  exact ⟨c, more ++ rest, rfl, hc⟩

theorem isJsSpace_of_toLower {c d : Char} (h : c.toLower = d) (hd : d.isAlpha = true) : isJsSpace c = false :=
  isJsSpace_of_isAlpha (isAlpha_of_toLower (h ▸ hd))

theorem BeginsCreate.head_not_blank {t : Text} (h : BeginsCreate t) : t.head?.any isJsSpace = false := by
  obtain ⟨c, more, rfl, hc⟩ := h.head
  exact isJsSpace_of_toLower hc (by decide)

theorem BeginsCreate.leadingDrop {t : Text} (h : BeginsCreate t) : leadingDrop t = none := by
  obtain ⟨c, more, rfl, hc⟩ := h.head
  refine leadingDrop_eq_none ?_
  rw [List.head?_cons, Option.any_some, hc]
  rfl

/-- A statement is what it is with a semicolon. -/
theorem statementOf_concat {front t blanks : Text} (h : BeginsCreate t) (hfront : Blank front) (hblanks : Blank blanks) :
    statementOf (front ++ (t ++ ';' :: blanks)) = t := by
  have hhead : (t ++ [';']).head?.any isJsSpace = false := by
    obtain ⟨c, more, rfl, hc⟩ := h.head
    exact isJsSpace_of_toLower hc (by decide)
  have hlast : (t ++ [';']).getLast?.any isJsSpace = false := by
    rw [List.getLast?_concat]
    rfl
  have htrim : jsTrim (front ++ (t ++ ';' :: blanks)) = t ++ [';'] := by
    rw [List.append_cons t ';' blanks]
    exact jsTrim_pad hfront hblanks hhead hlast
  have hbegins : BeginsCreate (t ++ [';']) := by
    obtain ⟨created, rest, rfl, hcreated⟩ := h
    exact ⟨created, rest ++ [';'], List.append_assoc .., hcreated⟩
  unfold statementOf
  dsimp only
  rw [htrim, hbegins.leadingDrop, Option.getD_none, jsTrim_self hhead hlast, withoutSemicolon_concat]

theorem statementOf_of_last {front t back : Text} (h : BeginsCreate t) (hfront : Blank front) (hback : Blank back)
    {c : Char} (hlast : t.getLast? = some c) (hc : isJsSpace c = false) (hne : c ≠ ';') :
    statementOf (front ++ (t ++ back)) = t := by
  have hblank : t.getLast?.any isJsSpace = false := by
    rw [hlast]
    exact hc
  have htrim := jsTrim_pad hfront hback h.head_not_blank hblank
  unfold statementOf
  dsimp only
  rw [htrim, h.leadingDrop, Option.getD_none, jsTrim_self h.head_not_blank hblank, withoutSemicolon_of_last hlast hc hne]

namespace CreateView

variable {v : CreateView} (hok : v.Ok)

include hok

theorem beginsCreate_statement : BeginsCreate v.statement := ⟨v.createWord, _, rfl, hok.createWord_ok⟩

theorem statementOf_text (hlead : Blank v.lead) : statementOf v.text = v.statement := by
  obtain ⟨blanks, hblanks, hclose⟩ | ⟨hclose, c, hlast, hc, hne⟩ := hok.close_ok
  · rw [text, hclose]
    exact statementOf_concat (beginsCreate_statement hok) hlead hblanks
  · refine statementOf_of_last (beginsCreate_statement hok) hlead hclose ?_ hc hne
    unfold statement rest
    simp only [List.getLast?_append, hlast, Option.some_or]

end CreateView

/-! ## Round trips -/

theorem roundTrips_of_eq {engine ddl fallbackName : Text}
    (h : buildViewApply engine (runnableViewDdl engine ddl fallbackName) fallbackName =
      buildViewApply engine ddl fallbackName) : RoundTrips engine ddl fallbackName := by
  refine ⟨h, ?_⟩
  cases hplan : buildViewApply engine ddl fallbackName with
  | error e =>
    have hsame : runnableViewDdl engine ddl fallbackName = ddl := by
      rw [runnableViewDdl, hplan]
    rw [hsame, hsame]
  | ok statements =>
    rw [hplan] at h
    conv_lhs => rw [runnableViewDdl, h]
    rw [runnableViewDdl, hplan]

theorem wordHere_iff {w t : Text} : wordHere w none t = true ↔
    ∃ spelled rest, t = spelled ++ rest ∧ Spells w spelled ∧ rest.head?.any isRegexWord = false := by
  have hhere : wordHere w none t = (w.isPrefixOf (t.map Char.toLower) && !(t.drop w.length).head?.any isRegexWord) := rfl
  rw [hhere, Bool.and_eq_true, Bool.not_eq_true', List.isPrefixOf_iff_prefix]
  constructor
  · rintro ⟨⟨more, hmore⟩, hend⟩
    obtain ⟨spelled, rest, rfl, hspelled, -⟩ := List.map_eq_append_iff.mp hmore.symm
    have hlength : spelled.length = w.length := Spells.length_eq hspelled
    rw [← hlength, List.drop_left] at hend
    exact ⟨spelled, rest, rfl, hspelled, hend⟩
  · rintro ⟨spelled, rest, rfl, hspelled, hend⟩
    rw [List.map_append, hspelled, ← hspelled.length_eq, List.drop_left]
    exact ⟨List.prefix_append _ _, hend⟩

theorem head_of_prefix {p t : Text} (h : p <+: t) (ht : t.head?.any isJsSpace = false) : p.head?.any isJsSpace = false := by
  cases p with
  | nil => rfl
  | cons c p =>
    obtain ⟨more, rfl⟩ := h
    exact ht

theorem head_jsTrim (t : Text) : (jsTrim t).head?.any isJsSpace = false := by
  refine head_of_prefix (List.rdropWhile_prefix isJsSpace (t.dropWhile isJsSpace)) ?_
  have h := List.head?_dropWhile_not isJsSpace t
  cases hd : (t.dropWhile isJsSpace).head? with
  | none => rfl
  | some c =>
    rw [hd] at h
    exact h

theorem head_statementOf (ddl : Text) : (statementOf ddl).head?.any isJsSpace = false :=
  head_of_prefix (withoutSemicolon_isPrefix_self _) (head_jsTrim _)

theorem dropWhile_of_head {t : Text} (h : t.head?.any isJsSpace = false) :
    t.dropWhile isJsSpace = t ∧ t.takeWhile isJsSpace = [] := by
  cases t with
  | nil => exact ⟨rfl, rfl⟩
  | cons c t =>
    have hc : ¬isJsSpace c = true := Bool.eq_false_iff.mp h
    exact ⟨List.dropWhile_cons_of_neg hc, List.takeWhile_cons_of_neg hc⟩

/-- What `isViewText` says of a text without blanks in front. -/
theorem isViewText_iff {t : Text} (hhead : t.head?.any isJsSpace = false) : isViewText t = true ↔
    ∃ created rest, t = created ++ rest ∧ Spells "create".toList created ∧ rest.head?.any isRegexWord = false ∧
      occursAfter isRegexWord "view".toList (some 'e') (rest.map Char.toLower) = true := by
  rw [isViewText]
  rw [(dropWhile_of_head hhead).1, Bool.and_eq_true, wordHere_iff]
  constructor
  · rintro ⟨⟨created, rest, rfl, hcreated, hend⟩, hview⟩
    have hlength : created.length = 6 := hcreated.length_eq
    rw [← hlength, List.drop_left] at hview
    exact ⟨created, rest, rfl, hcreated, hend, hview⟩
  · rintro ⟨created, rest, rfl, hcreated, hend, hview⟩
    have hlength : created.length = 6 := hcreated.length_eq
    rw [← hlength, List.drop_left]
    exact ⟨⟨created, rest, rfl, hcreated, hend⟩, hview⟩

theorem occursAfter_append {isPart : Char → Bool} {phrase : Text} (first : Option Char) (before : Text) {rest : Text}
    (h : occursAfter isPart phrase (before.getLast?.or first) rest = true) :
    occursAfter isPart phrase first (before ++ rest) = true := by
  induction before generalizing first with
  | nil => exact h
  | cons c before ih =>
    rw [List.cons_append, occursAfter, Bool.or_eq_true]
    right
    apply ih
    cases before with
    | nil => exact h
    | cons d before => exact h

theorem isOrReplace_text {rest : Text} (h : rest.head?.any isRegexWord = false) :
    isOrReplace ("CREATE OR REPLACE".toList ++ rest) = true := by
  have hboundary : (if rest.head?.any isRegexWord then none else some ()) = some () := by
    rw [h]
    rfl
  have hspace : Blank [' '] := List.forall_mem_singleton.mpr (by decide)
  unfold isOrReplace
  dsimp only
  rw [(dropWhile_of_head (by rfl)).1,
    show "CREATE OR REPLACE".toList ++ rest =
      "CREATE".toList ++ ([' '] ++ ("OR".toList ++ ([' '] ++ ("REPLACE".toList ++ rest)))) from rfl,
    word_append (by rfl),
    spaces_append (List.cons_ne_nil _ _) hspace (by rfl) (r := ())]
  · rfl
  · rw [word_append (by rfl)]
    refine spaces_append (List.cons_ne_nil _ _) hspace (by rfl) ?_
    rw [word_append (by rfl)]
    exact hboundary

theorem withOrReplace_eq {created rest : Text} (hcreated : Spells "create".toList created)
    (hend : rest.head?.any isRegexWord = false) :
    withOrReplace (created ++ rest) = "CREATE OR REPLACE".toList ++ rest := by
  have hhead := BeginsCreate.head_not_blank ⟨created, rest, rfl, hcreated⟩
  have hlength : created.length = 6 := hcreated.length_eq
  unfold withOrReplace
  dsimp only
  rw [(dropWhile_of_head hhead).1, (dropWhile_of_head hhead).2, if_pos (wordHere_iff.mpr ⟨_, _, rfl, hcreated, hend⟩),
    ← hlength, List.drop_left]
  rfl

/-- Where `OR REPLACE` is put, the text is a view still, and nothing more is put. -/
theorem orReplace_fixed {stmt : Text} (hhead : stmt.head?.any isJsSpace = false) (hview : isViewText stmt = true) :
    let shown := if isOrReplace stmt then stmt else withOrReplace stmt
    BeginsCreate shown ∧ isViewText shown = true ∧ isOrReplace shown = true := by
  obtain ⟨created, rest, rfl, hcreated, hend, hword⟩ := (isViewText_iff hhead).mp hview
  dsimp only
  split_ifs with hreplace
  · exact ⟨⟨created, rest, rfl, hcreated⟩, hview, hreplace⟩
  · rw [withOrReplace_eq hcreated hend]
    have hbegins : BeginsCreate ("CREATE OR REPLACE".toList ++ rest) :=
      ⟨"CREATE".toList, " OR REPLACE".toList ++ rest, rfl, rfl⟩
    refine ⟨hbegins, (isViewText_iff hbegins.head_not_blank).mpr
      ⟨"CREATE".toList, " OR REPLACE".toList ++ rest, rfl, rfl, rfl, ?_⟩, isOrReplace_text hend⟩
    rw [List.map_append]
    exact occursAfter_append _ _ hword

theorem roundTrips_orReplace {engine : Text} (hengine : jsLower engine ∈ orReplaceEngines) (ddl fallbackName : Text) :
    RoundTrips engine ddl fallbackName := by
  refine roundTrips_of_eq ?_
  cases hview : isViewText (statementOf ddl) with
  | false =>
    have hplan : buildViewApply engine ddl fallbackName = .error _ := if_pos (by rw [hview]; rfl)
    rw [runnableViewDdl, hplan]
    exact hplan
  | true =>
    obtain ⟨hbegins, hstill, hfixed⟩ := orReplace_fixed (head_statementOf ddl) hview
    have hplan : buildViewApply engine ddl fallbackName = .ok [if isOrReplace (statementOf ddl) then statementOf ddl
        else withOrReplace (statementOf ddl)] := by
      rw [buildViewApply, hview, if_neg (by decide), if_pos hengine]
    generalize (if isOrReplace (statementOf ddl) then statementOf ddl
      else withOrReplace (statementOf ddl)) = shown at hplan hbegins hstill hfixed
    have hshown : runnableViewDdl engine ddl fallbackName = shown ++ [';'] := by
      rw [runnableViewDdl, hplan]
      simp [List.intercalate]
    have hstatement := statementOf_concat hbegins blank_nil blank_nil
    rw [List.nil_append] at hstatement
    rw [hshown, hplan, buildViewApply]
    rw [hstatement, hstill, if_neg (by decide), if_pos hengine, if_pos hfixed]

theorem throughSemicolon_append {front : Text} (hfront : ';' ∉ front) (rest : Text) :
    throughSemicolon (front ++ ';' :: rest) = some (rest.dropWhile isJsSpace) := by
  have hkeep : ∀ c ∈ front, decide (c ≠ ';') = true := fun c hc ↦ decide_eq_true fun h ↦ hfront (h ▸ hc)
  rw [throughSemicolon, List.dropWhile_append_of_pos hkeep, List.dropWhile_cons_of_neg (by decide)]

/-- Blanks in front of a name may be counted to it. -/
theorem spaces_throughSemicolon (t : Text) {c : Char} (hc : isJsSpace c = true) :
    spaces throughSemicolon (c :: t) = throughSemicolon t := by
  have hskip {c : Char} (hc : isJsSpace c = true) (t : Text) : throughSemicolon (c :: t) = throughSemicolon t := by
    have hne : c ≠ ';' := by
      rintro rfl
      exact absurd hc (by decide)
    have hdrop : (c :: t).dropWhile (· ≠ ';') = t.dropWhile (· ≠ ';') :=
      List.dropWhile_cons_of_pos (decide_eq_true hne)
    rw [throughSemicolon, hdrop, throughSemicolon]
  induction t generalizing c with
  | nil =>
    rw [Backtrack.spaces, if_pos hc, Backtrack.spaces, Option.none_or]
  | cons d t ih =>
    rw [Backtrack.spaces, if_pos hc]
    by_cases hd : isJsSpace d = true
    · rw [ih hd, hskip hd, Option.or_self]
    · rw [Backtrack.spaces, if_neg hd, Option.none_or]

theorem leadingDrop_dropView {t r : Text} (h : throughSemicolon t = some r) : leadingDrop (dropView t) = some r := by
  have hspace : Blank [' '] := List.forall_mem_singleton.mpr (by decide)
  have hname : spaces throughSemicolon (' ' :: t) = some r := by
    rw [spaces_throughSemicolon t (by decide), h]
  have hexists : spaces (word "exists".toList (spaces throughSemicolon))
      ([' '] ++ ("EXISTS".toList ++ ' ' :: t)) = some r := by
    refine spaces_append (List.cons_ne_nil _ _) hspace (by rfl) ?_
    rw [word_append (by rfl)]
    exact hname
  have hif : optional (fun next ↦ word "if".toList <| spaces <| word "exists".toList <| spaces next) throughSemicolon
      ("IF".toList ++ ([' '] ++ ("EXISTS".toList ++ ' ' :: t))) = some r := by
    rw [Backtrack.optional, word_append (by rfl), hexists, Option.some_or]
  rw [show dropView t = "DROP".toList ++ ([' '] ++ ("VIEW".toList ++ ([' '] ++ ("IF".toList ++
    ([' '] ++ ("EXISTS".toList ++ ' ' :: t)))))) from rfl, leadingDrop, word_append (by rfl)]
  refine spaces_append (List.cons_ne_nil _ _) hspace (by rfl) ?_
  rw [word_append (by rfl)]
  exact spaces_append (List.cons_ne_nil _ _) hspace (by rfl) hif

/-- What is left of a drop and a statement. -/
theorem statementOf_dropView {name stmt r : Text} (h : throughSemicolon (name ++ ";\n\n".toList ++ (stmt ++ [';'])) = some r) :
    statementOf (dropView name ++ ";\n\n".toList ++ (stmt ++ [';'])) = Schemas.withoutSemicolon (jsTrim r) := by
  have hlast : (dropView name ++ ";\n\n".toList ++ (stmt ++ [';'])).getLast?.any isJsSpace = false := by
    rw [← List.append_assoc, List.getLast?_concat]
    rfl
  have hdrop : dropView name = 'D' :: ("ROP VIEW IF EXISTS ".toList ++ name) := rfl
  have hhead : (dropView name ++ ";\n\n".toList ++ (stmt ++ [';'])).head?.any isJsSpace = false := by
    rw [hdrop]
    rfl
  have htrim : jsTrim (dropView name ++ ";\n\n".toList ++ (stmt ++ [';'])) =
      dropView (name ++ ";\n\n".toList ++ (stmt ++ [';'])) := by
    have hassoc (drop mark back : Text) : drop ++ name ++ mark ++ back = drop ++ (name ++ mark ++ back) := by
      simp only [List.append_assoc]
    exact (jsTrim_self hhead hlast).trans (hassoc _ _ _)
  unfold statementOf
  dsimp only
  rw [htrim, leadingDrop_dropView h, Option.getD_some]

theorem statementOf_shown_of_not_mem {name stmt : Text} (hname : ';' ∉ name) (hbegins : BeginsCreate stmt) :
    statementOf (dropView name ++ ";\n\n".toList ++ (stmt ++ [';'])) = stmt := by
  have hhead : (stmt ++ [';']).head?.any isJsSpace = false := by
    obtain ⟨c, more, rfl, hc⟩ := hbegins.head
    exact isJsSpace_of_toLower hc (by decide)
  have hlast : (stmt ++ [';']).getLast?.any isJsSpace = false := by
    rw [List.getLast?_concat]
    rfl
  have hbehind : throughSemicolon (name ++ ";\n\n".toList ++ (stmt ++ [';'])) = some (stmt ++ [';']) := by
    rw [List.append_assoc, show ";\n\n".toList ++ (stmt ++ [';']) = ';' :: ("\n\n".toList ++ (stmt ++ [';'])) from rfl,
      throughSemicolon_append hname, List.dropWhile_append_of_pos (by decide), (dropWhile_of_head hhead).1]
  rw [statementOf_dropView hbehind, jsTrim_self hhead hlast, withoutSemicolon_concat]

theorem statementOf_shown_of_mem {name stmt : Text} (hname : ';' ∈ name) :
    statementOf (dropView name ++ ";\n\n".toList ++ (stmt ++ [';'])) ≠ stmt := by
  obtain ⟨front, back, rfl, hfront⟩ := List.eq_append_cons_of_mem hname
  have hblank : ∃ kept, (back ++ (";\n\n".toList ++ (stmt ++ [';']))).dropWhile isJsSpace =
      kept ++ (";\n\n".toList ++ (stmt ++ [';'])) := by
    rw [List.dropWhile_append]
    split_ifs
    · exact ⟨[], List.dropWhile_cons_of_neg (by decide)⟩
    · exact ⟨_, rfl⟩
  obtain ⟨kept, hkept⟩ := hblank
  have hbehind : throughSemicolon (front ++ ';' :: back ++ ";\n\n".toList ++ (stmt ++ [';'])) =
      some (kept ++ (";\n\n".toList ++ (stmt ++ [';']))) := by
    rw [← hkept, ← throughSemicolon_append hfront]
    simp only [List.append_assoc, List.cons_append]
  have hhead : (kept ++ (";\n\n".toList ++ (stmt ++ [';']))).head?.any isJsSpace = false := by
    rw [← hkept]
    have h := List.head?_dropWhile_not isJsSpace (back ++ (";\n\n".toList ++ (stmt ++ [';'])))
    cases hd : ((back ++ (";\n\n".toList ++ (stmt ++ [';']))).dropWhile isJsSpace).head? with
    | none => rfl
    | some c =>
      rw [hd] at h
      exact h
  have hlast : (kept ++ (";\n\n".toList ++ (stmt ++ [';']))).getLast?.any isJsSpace = false := by
    rw [← List.append_assoc, ← List.append_assoc, List.getLast?_concat]
    rfl
  rw [statementOf_dropView hbehind, jsTrim_self hhead hlast, ← List.append_assoc, ← List.append_assoc,
    withoutSemicolon_concat]
  intro h
  have hlength := congrArg List.length h
  simp only [List.length_append] at hlength
  have hmark : ";\n\n".toList.length = 3 := rfl
  omega

/-- A text round-trips, on engines that drop the view first, if no semicolon is in the name that is dropped. -/
theorem roundTrips_iff {engine ddl fallbackName : Text} (hengine : jsLower engine ∉ orReplaceEngines)
    (hview : isViewText (statementOf ddl) = true) :
    RoundTrips engine ddl fallbackName ↔ ';' ∉ nameIn (statementOf ddl) fallbackName := by
  have hbegins : BeginsCreate (statementOf ddl) := by
    obtain ⟨created, rest, hstmt, hcreated, -⟩ := (isViewText_iff (head_statementOf ddl)).mp hview
    exact ⟨created, rest, hstmt, hcreated⟩
  have hplan : buildViewApply engine ddl fallbackName =
      .ok [dropView (nameIn (statementOf ddl) fallbackName), statementOf ddl] := by
    rw [buildViewApply, hview, if_neg (by decide), if_neg hengine]
  have hshown : runnableViewDdl engine ddl fallbackName =
      dropView (nameIn (statementOf ddl) fallbackName) ++ ";\n\n".toList ++ (statementOf ddl ++ [';']) := by
    rw [runnableViewDdl, hplan]
    simp [List.intercalate]
  constructor
  · rintro ⟨hsame, -⟩ hmem
    rw [hshown, hplan, buildViewApply] at hsame
    split_ifs at hsame
    have hstatements := Except.ok.inj hsame
    exact statementOf_shown_of_mem hmem (List.cons_eq_cons.mp (List.cons_eq_cons.mp hstatements).2).1
  · intro hname
    refine roundTrips_of_eq ?_
    rw [hshown, hplan, buildViewApply, statementOf_shown_of_not_mem hname hbegins, hview, if_neg (by decide),
      if_neg hengine]

/-! ## What stands between words -/

/-- Blanks alone, or a comment behind blanks. -/
theorem Sep.blank_or {t : Text} (h : Sep t) :
    Blank t ∨ ∃ blanks c rest, t = blanks ++ c :: rest ∧ Blank blanks ∧ (c = '-' ∨ c = '/') := by
  induction h with
  | nil => exact .inl fun _ hc ↦ nomatch hc
  | @blank c rest hc hrest ih =>
    obtain hblank | ⟨blanks, d, more, rfl, hblank, hd⟩ := ih
    · exact .inl (List.forall_mem_cons.mpr ⟨hc, hblank⟩)
    · exact .inr ⟨c :: blanks, d, more, rfl, List.forall_mem_cons.mpr ⟨hc, hblank⟩, hd⟩
  | @line body rest hrest ih => exact .inr ⟨[], '-', _, rfl, (fun _ hc ↦ nomatch hc), .inl rfl⟩
  | @block body rest hrest ih => exact .inr ⟨[], '/', _, rfl, (fun _ hc ↦ nomatch hc), .inr rfl⟩

theorem isRegexWord_of_isJsSpace {c : Char} (h : isJsSpace c = true) : isRegexWord c = false := by
  have hbare := isBare_of_isJsSpace h
  simp only [QualifiedName.isBare, Bool.or_eq_false_iff] at hbare
  simp [isRegexWord, hbare.1.1.1.1.1, hbare.1.1.1.1.2]

/-- No word goes on behind it. -/
theorem Sep.head {t : Text} (h : Sep t) : t.head?.any isRegexWord = false := by
  cases h with
  | nil => rfl
  | blank hc => exact isRegexWord_of_isJsSpace hc
  | line => rfl
  | block => rfl

theorem Sep.getLast {t : Text} (h : Sep t) : t.getLast?.any isRegexWord = false := by
  have hjoin {a b : Text} (ha : a.getLast?.any isRegexWord = false) (hb : b.getLast?.any isRegexWord = false) :
      (a ++ b).getLast?.any isRegexWord = false := by
    rw [List.getLast?_append]
    cases hlast : b.getLast? with
    | none => exact ha
    | some c => rwa [hlast] at hb
  induction h with
  | nil => rfl
  | blank hc hrest ih => exact hjoin (a := [_]) (isRegexWord_of_isJsSpace hc) ih
  | @line body rest hrest ih =>
    rw [List.append_cons]
    refine hjoin ?_ ih
    rw [List.getLast?_concat]
    rfl
  | @block body rest hrest ih =>
    refine hjoin ?_ ih
    rw [show "*/".toList = ['*'] ++ ['/'] from rfl, ← List.append_assoc, List.getLast?_concat]
    rfl

/-- Blanks in front of something that is no comment are all there is between. -/
theorem Sep.eq_blank {sep blanks x y : Text} (hsep : Sep sep) (hblank : Blank blanks) {c : Char} (hx : x.head? = some c)
    (hc : isJsSpace c = false) (hcomment : c ≠ '-' ∧ c ≠ '/') (hy : y.head?.any isJsSpace = false)
    (h : blanks ++ x = sep ++ y) : sep = blanks ∧ x = y := by
  have hxhead : x.head?.any isJsSpace = false := by
    rw [hx]
    exact hc
  obtain hall | ⟨front, d, more, rfl, hfront, hd⟩ := hsep.blank_or
  · obtain ⟨hsame, hrest⟩ := run_append_inj hblank hall hxhead hy h
    exact ⟨hsame.symm, hrest⟩
  · have hnot : isJsSpace d = false := by
      have hall : ∀ e ∈ ['-', '/'], isJsSpace e = false := by decide
      exact hall d (by simpa using hd)
    rw [List.append_assoc] at h
    have hyhead : (d :: more ++ y).head?.any isJsSpace = false := hnot
    obtain ⟨-, rfl⟩ := run_append_inj hblank hfront hxhead hyhead h
    cases hx
    obtain rfl | rfl := hd
    · exact absurd rfl hcomment.1
    · exact absurd rfl hcomment.2

theorem isRegexWord_toLower {c : Char} (h : isRegexWord c = false) : c.toLower = c := by
  refine dif_neg fun hrange ↦ ?_
  have hupper : c.isUpper = true := decide_eq_true hrange
  simp [isRegexWord, Char.isAlphanum, isAlpha_eq, hupper] at h

theorem any_toLower {o : Option Char} (h : o.any isRegexWord = false) :
    (o.map Char.toLower).any isRegexWord = false := by
  cases o with
  | none => rfl
  | some c =>
    have hc : isRegexWord c = false := h
    rw [Option.map_some, Option.any_some, isRegexWord_toLower hc, hc]

theorem isBare_of_isRegexWord {c : Char} (h : isRegexWord c = true) : QualifiedName.isBare c = true := by
  simp only [isRegexWord, Bool.or_eq_true] at h
  simp only [QualifiedName.isBare, Bool.or_eq_true]
  exact .inl (.inl (.inl (.inl h)))

theorem head_of_apart {sep next : Text} (hsep : Sep sep) (h : CreateView.Apart sep next) :
    (sep ++ next).head?.any isRegexWord = false := by
  cases sep with
  | cons c sep => exact hsep.head
  | nil =>
    obtain hne | hbare := h
    · exact absurd rfl hne
    · rw [List.nil_append]
      cases next with
      | nil => rfl
      | cons c next =>
        have hc : QualifiedName.isBare c = false := hbare
        rw [List.head?_cons, Option.any_some, Bool.eq_false_iff]
        exact fun hword ↦ absurd (isBare_of_isRegexWord hword) (by rw [hc]; exact Bool.false_ne_true)

namespace CreateView

variable {v : CreateView} (hok : v.Ok)

include hok

theorem isViewText_statement : isViewText v.statement = true := by
  have hbegins := beginsCreate_statement hok
  obtain ⟨hafter, hne⟩ := hok.afterCreate_ok
  have hend {rest : Text} : (v.afterCreate ++ rest).head?.any isRegexWord = false := by
    obtain ⟨c, more, hcons⟩ := List.exists_cons_of_ne_nil hne
    have hhead := hafter.head
    rw [hcons] at hhead ⊢
    exact hhead
  refine (isViewText_iff hbegins.head_not_blank).mpr ⟨v.createWord, _, rfl, hok.createWord_ok, hend, ?_⟩
  have hview : v.viewWord.map Char.toLower = "view".toList := hok.viewWord_ok
  generalize htail : v.afterView ++ (v.guardText ++ (v.name ++ v.rest)) = tail
  have hlower (t : Text) : (v.viewWord ++ t).map Char.toLower = "view".toList ++ t.map Char.toLower := by
    rw [List.map_append, hview]
  rw [← List.append_assoc, List.map_append, hlower]
  refine occursAfter_of_between (List.cons_ne_nil _ _) _ _ _ ?_ ?_
  · have hlast : (v.afterCreate ++ v.modifiers.flatMap fun m ↦ m.1 ++ m.2).getLast?.any isRegexWord = false := by
      obtain hnil | ⟨before, m, hm⟩ := List.eq_nil_or_concat v.modifiers
      · rw [hnil, List.flatMap_nil, List.append_nil]
        exact hafter.getLast
      · rw [List.concat_eq_append] at hm
        obtain ⟨-, hsep, hsepne⟩ := hok.modifiers_ok m (hm ▸ List.mem_append_right _ (List.mem_singleton_self m))
        rw [hm, List.flatMap_append, List.flatMap_singleton, ← List.append_assoc, ← List.append_assoc,
          List.getLast?_append_of_ne_nil _ hsepne]
        exact hsep.getLast
    have hsome : (v.afterCreate ++ v.modifiers.flatMap fun m ↦ m.1 ++ m.2) ≠ [] :=
      List.append_ne_nil_of_left_ne_nil hne _
    have hor : (((v.afterCreate ++ v.modifiers.flatMap fun m ↦ m.1 ++ m.2).map Char.toLower).getLast?.or (some 'e')) =
        (v.afterCreate ++ v.modifiers.flatMap fun m ↦ m.1 ++ m.2).getLast?.map Char.toLower := by
      rw [List.getLast?_map, List.getLast?_eq_some_getLast hsome]
      rfl
    rw [hor]
    exact any_toLower hlast
  · rw [List.head?_map]
    refine any_toLower ?_
    obtain ⟨hsep, hapart⟩ := hok.afterView_ok
    have hhead := head_of_apart hsep hapart
    have hmore {t : Text} (ht : t ≠ []) (h : t.head?.any isRegexWord = false) (x : Text) :
        (t ++ x).head?.any isRegexWord = false := by
      obtain ⟨c, t, rfl⟩ := List.exists_cons_of_ne_nil ht
      exact h
    have hname : v.name ≠ [] := by
      intro hnil
      have hread := hok.name_ok
      rw [hnil] at hread
      cases hread
    rw [← htail, ← List.append_assoc v.guardText, ← List.append_assoc v.afterView]
    exact hmore (List.append_ne_nil_of_right_ne_nil _ (List.append_ne_nil_of_right_ne_nil _ hname)) hhead _

/-- A comment in front is taken for something else than a view. -/
theorem blank_of_isViewText (h : isViewText (statementOf v.text) = true) : Blank v.lead := by
  obtain hblank | ⟨blanks, c, rest, hlead, hblank, hc⟩ := hok.lead_ok.blank_or
  · exact hblank
  · exfalso
    have hnot : isJsSpace c = false ∧ c.toLower ≠ 'd' ∧ c.toLower ≠ 'c' := by
      have hall : ∀ e ∈ ['-', '/'], isJsSpace e = false ∧ e.toLower ≠ 'd' ∧ e.toLower ≠ 'c' := by decide
      exact hall c (by simpa using hc)
    have htrimmed : ∃ more, jsTrim v.text <+: c :: more := by
      refine ⟨rest ++ (v.statement ++ v.close), ?_⟩
      have hstart : jsTrimStart v.text = c :: (rest ++ (v.statement ++ v.close)) := by
        rw [text, hlead, List.append_assoc]
        unfold jsTrimStart
        rw [List.dropWhile_append_of_pos hblank]
        exact List.dropWhile_cons_of_neg (Bool.eq_false_iff.mp hnot.1)
      rw [jsTrim, hstart]
      exact List.rdropWhile_prefix _ _
    obtain ⟨more, hmore⟩ := htrimmed
    have hkept : leadingDrop (jsTrim v.text) = none := by
      refine leadingDrop_eq_none ?_
      cases htext : jsTrim v.text with
      | nil => rfl
      | cons d t =>
        rw [htext] at hmore
        have hd : d = c := (List.cons_prefix_cons.mp hmore).1
        rw [List.head?_cons, Option.any_some, hd]
        exact decide_eq_false hnot.2.1
    have hstatement : statementOf v.text <+: c :: more := by
      unfold statementOf
      dsimp only
      rw [hkept, Option.getD_none, jsTrim_jsTrim]
      exact (withoutSemicolon_isPrefix_self _).trans hmore
    obtain ⟨created, behind, hstmt, hcreated, -⟩ := (isViewText_iff (head_statementOf _)).mp h
    obtain ⟨d, t, hd, hlower⟩ := BeginsCreate.head ⟨created, behind, hstmt, hcreated⟩
    rw [hd] at hstatement
    exact hnot.2.2 ((List.cons_prefix_cons.mp hstatement).1 ▸ hlower)

end CreateView

/-! ## The phrase -/

/-- `IF NOT EXISTS` with blanks alone behind each word. -/
structure Guard.Spaced (g : Guard) : Prop where
  ifWord_ok : Spells "if".toList g.ifWord
  afterIf_blank : Blank g.afterIf ∧ g.afterIf ≠ []
  notWord_ok : Spells "not".toList g.notWord
  afterNot_blank : Blank g.afterNot ∧ g.afterNot ≠ []
  existsWord_ok : Spells "exists".toList g.existsWord
  afterExists_blank : Blank g.afterExists ∧ g.afterExists ≠ []

/-- The shortest text in front of an `as` between blanks. -/
structure Captured (c behind : Text) : Prop where
  follows : asFollows behind = true
  least : ∀ before after, c = before ++ after → before ≠ [] → after ≠ [] → asFollows (after ++ behind) = false

theorem asFollows_iff {q : Text} : asFollows q = true ↔ ∃ blanks spelled rest, q = blanks ++ (spelled ++ rest) ∧
    (Blank blanks ∧ blanks ≠ []) ∧ Spells "as".toList spelled ∧ rest.head?.any (fun c ↦ isJsSpace c || c = '(') = true := by
  unfold asFollows
  rw [Option.isSome_iff_exists]
  constructor
  · rintro ⟨u, hu⟩
    obtain ⟨blanks, more, rfl, hne, hblank, hmore⟩ := spaces_eq_some hu
    obtain ⟨spelled, rest, rfl, hspelled, hrest⟩ := word_eq_some hmore
    split_ifs at hrest with hnext
    exact ⟨blanks, spelled, rest, rfl, ⟨hblank, hne⟩, hspelled, hnext⟩
  · rintro ⟨blanks, spelled, rest, rfl, ⟨hblank, hne⟩, hspelled, hnext⟩
    refine ⟨(), spaces_append hne hblank ?_ ?_⟩
    · obtain ⟨c, more, rfl, hc, -⟩ := List.map_eq_cons_iff.mp hspelled
      exact isJsSpace_of_toLower hc (by decide)
    · rw [word_append hspelled, if_pos hnext]

theorem ifNotExists_eq_some {next : Reader Text} {t c : Text} (h : ifNotExists next t = some c) :
    ∃ (g : Guard) (rest : Text), g.Spaced ∧ t = g.text ++ rest ∧ next rest = some c := by
  obtain ⟨ifWord, t₁, rfl, hif, h₁⟩ := word_eq_some h
  obtain ⟨afterIf, t₂, rfl, hne₁, hblank₁, h₂⟩ := spaces_eq_some h₁
  obtain ⟨notWord, t₃, rfl, hnot, h₃⟩ := word_eq_some h₂
  obtain ⟨afterNot, t₄, rfl, hne₂, hblank₂, h₄⟩ := spaces_eq_some h₃
  obtain ⟨existsWord, t₅, rfl, hexists, h₅⟩ := word_eq_some h₄
  obtain ⟨afterExists, rest, rfl, hne₃, hblank₃, hnext⟩ := spaces_eq_some h₅
  refine ⟨⟨ifWord, afterIf, notWord, afterNot, existsWord, afterExists⟩, rest,
    ⟨hif, ⟨hblank₁, hne₁⟩, hnot, ⟨hblank₂, hne₂⟩, hexists, ⟨hblank₃, hne₃⟩⟩, ?_, hnext⟩
  simp only [Guard.text, List.append_assoc]

/-- A word's first letter. -/
theorem head_of_spells {c : Char} {w spelled : Text} (h : Spells (c :: w) spelled) (hc : c.isAlpha = true) :
    ∃ d more, spelled = d :: more ∧ d.toLower = c ∧ isJsSpace d = false := by
  obtain ⟨d, more, rfl, hd, -⟩ := List.map_eq_cons_iff.mp h
  exact ⟨d, more, rfl, hd, isJsSpace_of_toLower hd hc⟩

theorem head_not_blank_of_spells {c : Char} {w spelled : Text} (h : Spells (c :: w) spelled) (hc : c.isAlpha = true)
    (rest : Text) : (spelled ++ rest).head?.any isJsSpace = false := by
  obtain ⟨d, more, rfl, -, hd⟩ := head_of_spells h hc
  exact hd

theorem ifNotExists_append {next : Reader Text} {g : Guard} (hg : g.Spaced) {rest c : Text}
    (hrest : rest.head?.any isJsSpace = false) (h : next rest = some c) : ifNotExists next (g.text ++ rest) = some c := by
  simp only [Guard.text, List.append_assoc]
  rw [ifNotExists, word_append hg.ifWord_ok]
  refine spaces_append hg.afterIf_blank.2 hg.afterIf_blank.1 (head_not_blank_of_spells hg.notWord_ok (by decide) _) ?_
  rw [word_append hg.notWord_ok]
  refine spaces_append hg.afterNot_blank.2 hg.afterNot_blank.1
    (head_not_blank_of_spells hg.existsWord_ok (by decide) _) ?_
  rw [word_append hg.existsWord_ok]
  exact spaces_append hg.afterExists_blank.2 hg.afterExists_blank.1 hrest h

/-- How a text begins that the phrase is found in. -/
theorem phrase_eq_some {t c : Text} (h : phrase t = some c) :
    ∃ created gap viewed gap' guarded behind, t = created ++ (gap ++ (viewed ++ (gap' ++ (guarded ++ (c ++ behind))))) ∧
      Spells "create".toList created ∧ (Blank gap ∧ gap ≠ []) ∧ Spells "view".toList viewed ∧
      (Blank gap' ∧ gap' ≠ []) ∧ (guarded = [] ∨ ∃ g : Guard, g.Spaced ∧ guarded = g.text) ∧ Captured c behind := by
  obtain ⟨created, t₁, rfl, hcreated, h₁⟩ := word_eq_some h
  obtain ⟨gap, t₂, rfl, hne, hblank, h₂⟩ := spaces_eq_some h₁
  obtain ⟨viewed, t₃, rfl, hviewed, h₃⟩ := word_eq_some h₂
  obtain ⟨gap', t₄, rfl, hne', hblank', h₄⟩ := spaces_eq_some h₃
  have hcaptured {rest : Text} (hrest : shortest asFollows rest = some c) : ∃ behind, rest = c ++ behind ∧ Captured c behind := by
    obtain ⟨behind, rfl, -, hfollows, hleast⟩ := shortest_eq_some hrest
    exact ⟨behind, rfl, hfollows, hleast⟩
  obtain hguard | ⟨-, hplain⟩ := Option.or_eq_some_iff.mp h₄
  · obtain ⟨g, rest, hg, rfl, hrest⟩ := ifNotExists_eq_some hguard
    obtain ⟨behind, rfl, hc⟩ := hcaptured hrest
    exact ⟨created, gap, viewed, gap', g.text, behind, rfl, hcreated, ⟨hblank, hne⟩, hviewed, ⟨hblank', hne'⟩,
      .inr ⟨g, hg, rfl⟩, hc⟩
  · obtain ⟨behind, rfl, hc⟩ := hcaptured hplain
    exact ⟨created, gap, viewed, gap', [], behind, rfl, hcreated, ⟨hblank, hne⟩, hviewed, ⟨hblank', hne'⟩, .inl rfl, hc⟩

/-! ## Names in statements -/

theorem first_of_asFollows {q : Text} (h : asFollows q = true) : ∃ c, first q = some c ∧ c.toLower = 'a' := by
  obtain ⟨blanks, spelled, rest, rfl, ⟨hblank, -⟩, hspelled, -⟩ := asFollows_iff.mp h
  obtain ⟨c, more, rfl, hc, hnot⟩ := head_of_spells hspelled (by decide)
  exact ⟨c, by rw [first_append hblank]; exact first_cons hnot _, hc⟩

theorem head_of_asFollows {q : Text} (h : asFollows q = true) : q.head?.any isJsSpace = true := by
  obtain ⟨blanks, spelled, rest, rfl, ⟨hblank, hne⟩, -⟩ := asFollows_iff.mp h
  obtain ⟨c, blanks, rfl⟩ := List.exists_cons_of_ne_nil hne
  exact hblank c List.mem_cons_self

/-- Behind separators a comment or what follows comes first. -/
theorem Sep.first_append {sep : Text} (h : Sep sep) (next : Text) {c : Char} (hnext : next.head? = some c)
    (hc : isJsSpace c = false) :
    first (sep ++ next) = some '-' ∨ first (sep ++ next) = some '/' ∨ first (sep ++ next) = some c := by
  obtain hblank | ⟨blanks, d, rest, rfl, hblank, hd⟩ := h.blank_or
  · obtain ⟨more, rfl⟩ := List.head?_eq_some_iff.mp hnext
    exact .inr (.inr (by rw [Backtrack.first_append hblank, first_cons hc]))
  · have hnot : isJsSpace d = false := by
      have hall : ∀ e ∈ ['-', '/'], isJsSpace e = false := by decide
      exact hall d (by simpa using hd)
    have hfirst : first (blanks ++ d :: rest ++ next) = some d := by
      rw [List.append_assoc, Backtrack.first_append hblank]
      exact first_cons hnot _
    rw [hfirst]
    obtain rfl | rfl := hd
    · exact .inl rfl
    · exact .inr (.inl rfl)

theorem state_of_read {t : Text} (h : (read t).isSome = true) :
    ∃ state parts, run (.start []) t = some state ∧ finish state = some parts := by
  obtain ⟨parts, hparts⟩ := Option.isSome_iff_exists.mp h
  obtain ⟨state, hrun, hstate⟩ := Option.bind_eq_some_iff.mp hparts
  exact ⟨state, parts, hrun, hstate⟩

/-- Signs that end a name. -/
theorem step_sign {state : Reading} {parts : List Text} (hstate : finish state = some parts) {c : Char}
    (hc : c ∈ ['(', '-', '/']) : step state c = none := by
  have hall : ∀ c ∈ ['(', '-', '/'], QualifiedName.isBare c = false ∧ isJsSpace c = false ∧ c ≠ '.' ∧ c ∉ ['"', '`', '\'', ']'] := by
    decide
  obtain ⟨hbare, hblank, hdot, hclose⟩ := hall c hc
  exact step_eq_none hstate hbare (fun _ h ↦ hclose (mem_of_closing h)) hblank hdot

/-- A letter ends a name that ends in a quote. -/
theorem step_letter {parts : List Text} {opening : Char} {part : Text} {c : Char} (hc : c.isAlpha = true) :
    step (.closed parts opening part) c = none := by
  have hquotes : ∀ d ∈ ['"', '`', '\'', ']', '.'], d.isAlpha = false := by decide
  have hne {d : Char} (hd : d ∈ ['"', '`', '\'', ']', '.']) : c ≠ d := by
    rintro rfl
    rw [hquotes c hd] at hc
    cases hc
  have hclose : closing opening ≠ some c := fun h ↦ hne (List.mem_append_left ['.'] (mem_of_closing h)) rfl
  rw [step, if_neg hclose, leave, if_neg (hne (by decide)), if_neg (by rw [isJsSpace_of_isAlpha hc]; exact Bool.false_ne_true)]

namespace CreateView

variable {v : CreateView} (hok : v.Ok)

include hok

/-- What comes first behind the name. -/
theorem first_rest : ∃ c, first v.rest = some c ∧ (c ∈ ['(', '-', '/'] ∨ v.columns = none ∧ c.toLower = 'a') := by
  unfold rest
  cases hcolumns : v.columns with
  | some columns =>
    obtain ⟨hsep, inner, hinner⟩ := hok.columns_ok columns hcolumns
    rw [Option.map_some, Option.getD_some, hinner, List.append_assoc]
    obtain h | h | h := hsep.first_append ('(' :: inner ++ (v.beforeAs ++ (v.asWord ++ v.body))) rfl (by decide)
    · exact ⟨_, h, .inl (by decide)⟩
    · exact ⟨_, h, .inl (by decide)⟩
    · exact ⟨_, h, .inl (by decide)⟩
  | none =>
    obtain ⟨c, more, hword, hc, hnot⟩ := head_of_spells hok.asWord_ok (by decide)
    rw [Option.map_none, Option.getD_none, List.nil_append]
    obtain h | h | h := hok.beforeAs_ok.1.first_append (v.asWord ++ v.body) (by rw [hword]; rfl) hnot
    · exact ⟨_, h, .inl (by decide)⟩
    · exact ⟨_, h, .inl (by decide)⟩
    · exact ⟨_, h, .inr ⟨rfl, hc⟩⟩

theorem name_ne_nil : v.name ≠ [] := by
  intro hnil
  have hread := hok.name_ok
  rw [hnil] at hread
  cases hread

theorem stops_rest {state : Reading} {parts : List Text} (hrun : run (.start []) v.name = some state)
    (hstate : finish state = some parts) : Stops state v.rest := by
  obtain ⟨c, hfirst, hc⟩ := first_rest hok
  have hdot : c ≠ '.' := by
    rintro rfl
    obtain hsign | ⟨-, hlower⟩ := hc
    · exact absurd hsign (by decide)
    · exact absurd hlower (by decide)
  refine stops_of_first hstate hfirst hdot ?_
  obtain hsign | ⟨hcolumns, hlower⟩ := hc
  · exact .inr (step_sign hstate hsign)
  · cases hhead : v.rest.head?.any isJsSpace with
    | true => exact .inl rfl
    | false =>
      right
      have hbefore : v.beforeAs = [] := by
        by_contra hne
        obtain ⟨d, more, hd⟩ := List.exists_cons_of_ne_nil hne
        have hrest : v.rest = v.beforeAs ++ (v.asWord ++ v.body) := by
          rw [rest, hcolumns]
          rfl
        rw [hrest, hd] at hhead hfirst
        have hnot : isJsSpace d = false := hhead
        rw [List.cons_append, first_cons hnot] at hfirst
        cases hfirst
        have hsep := hok.beforeAs_ok.1
        rw [hd] at hsep
        cases hsep with
        | blank hblank =>
          rw [hblank] at hnot
          cases hnot
        | line => exact absurd hlower (by decide)
        | block => exact absurd hlower (by decide)
      have hbare := (hok.beforeAs_ok.2 hcolumns).resolve_left fun h ↦ h hbefore
      obtain ⟨earlier, opening, part, rfl⟩ := closed_of_last hrun hstate hbare hok.name_ends.2
      exact step_letter (isAlpha_of_toLower (hlower ▸ by decide))

/-- What is captured in front of `AS` is the name and blanks. -/
theorem name_agrees {c q : Text} (hread : (read c).isSome = true) (hfollows : asFollows q = true)
    (h : c ++ q = v.name ++ v.rest) : ∃ blanks, Blank blanks ∧ c = v.name ++ blanks ∧ v.rest = blanks ++ q := by
  obtain hle | hlt := le_or_gt v.name.length c.length
  · obtain ⟨state, parts, hrun, hstate⟩ := state_of_read hok.name_ok
    exact eq_append_of_stops hrun (stops_rest hok hrun hstate) hread h.symm hle
  · obtain ⟨state, parts, hrun, hstate⟩ := state_of_read hread
    obtain ⟨d, hd, hlower⟩ := first_of_asFollows hfollows
    have hdot : d ≠ '.' := by
      rintro rfl
      exact absurd hlower (by decide)
    have hstops := stops_of_first hstate hd hdot (.inl (head_of_asFollows hfollows))
    obtain ⟨blanks, hblank, hname, hq⟩ := eq_append_of_stops hrun hstops hok.name_ok h hlt.le
    obtain rfl : blanks = [] := by
      by_contra hne
      have hlast := hok.name_ends.2
      rw [hname, List.getLast?_append_of_ne_nil _ hne, List.getLast?_eq_some_getLast hne, Option.any_some,
        hblank _ (List.getLast_mem hne)] at hlast
      cases hlast
    exact ⟨[], hblank, by rw [hname, List.append_nil, List.append_nil], hq.symm⟩

/-- A name does not begin with `IF NOT EXISTS`. -/
theorem not_guard {g : Guard} (hg : g.Spaced) (x : Text) : g.text ++ x ≠ v.name ++ v.rest := by
  intro h
  obtain ⟨c, hfirst, hc⟩ := first_rest hok
  have hother {d e : Char} (hd : d.toLower = e) (he : e = 'f' ∨ e = 'n') : c ≠ d := by
    rintro rfl
    obtain hsign | ⟨-, hlower⟩ := hc
    · have hall : ∀ s ∈ ['(', '-', '/'], s.toLower ≠ 'f' ∧ s.toLower ≠ 'n' := by decide
      obtain rfl | rfl := he
      · exact (hall c hsign).1 hd
      · exact (hall c hsign).2 hd
    · rw [hlower] at hd
      rw [← hd] at he
      exact absurd he (by decide)
  obtain ⟨n, notMore, hnot, hn, hnblank⟩ := head_of_spells hg.notWord_ok (by decide)
  simp only [Guard.text, List.append_assoc] at h
  generalize hu : g.afterIf ++ (g.notWord ++ (g.afterNot ++ (g.existsWord ++ (g.afterExists ++ x)))) = u at h
  have hufirst : first u = some n := by
    rw [← hu, first_append hg.afterIf_blank.1, hnot]
    exact first_cons hnblank _
  have hletters : ∀ d ∈ g.ifWord, d.isAlpha = true := fun d hd ↦ hg.ifWord_ok.isAlpha (by decide) hd
  have hlength : g.ifWord.length = 2 := hg.ifWord_ok.length_eq
  have hne : g.ifWord ≠ [] := List.ne_nil_of_length_eq_add_one hlength
  obtain hle | hlt := le_or_gt g.ifWord.length v.name.length
  · have hstops : Stops (.bare [] g.ifWord) u := by
      refine stops_of_first rfl hufirst ?_ (.inl ?_)
      · rintro rfl
        exact absurd hn (by decide)
      · obtain ⟨b, more, hb⟩ := List.exists_cons_of_ne_nil hg.afterIf_blank.2
        rw [← hu, hb]
        exact hg.afterIf_blank.1 b (hb ▸ List.mem_cons_self)
    obtain ⟨blanks, hblank, hname, hrest⟩ := eq_append_of_stops (run_word hne hletters) hstops hok.name_ok h hle
    rw [hrest, first_append hblank, hfirst] at hufirst
    exact hother hn (.inr rfl) (Option.some.inj hufirst)
  · obtain ⟨i, f, hif⟩ := List.length_eq_two.mp hlength
    have hname : v.name = [i] := by
      obtain ⟨d, name, hd⟩ := List.exists_cons_of_ne_nil (name_ne_nil hok)
      rw [hif, hd] at h
      rw [hif, hd, List.length_cons, List.length_cons] at hlt
      have hnil : name = [] := List.length_eq_zero_iff.mp (Nat.lt_one_iff.mp (Nat.lt_of_succ_lt_succ hlt))
      rw [hd, hnil, (List.cons_eq_cons.mp h).1]
    have hf : f.toLower = 'f' := by
      have hspelled := hg.ifWord_ok
      rw [hif] at hspelled
      exact (List.cons_eq_cons.mp (List.cons_eq_cons.mp hspelled).2).1
    rw [hif, hname] at h
    have hrest : f :: u = v.rest := (List.cons_eq_cons.mp h).2
    rw [← hrest, first_cons (isJsSpace_of_toLower hf (by decide))] at hfirst
    exact hother hf (.inl rfl) (Option.some.inj hfirst).symm

omit hok in
/-- Nothing that is captured as a name begins with `IF`. -/
theorem not_captured_guard {g : Guard} (hg : g.Ok) {c q : Text} (hread : (read c).isSome = true)
    (hfollows : asFollows q = true) (x : Text) : c ++ q ≠ g.text ++ x := by
  intro h
  obtain ⟨a, hqfirst, ha⟩ := first_of_asFollows hfollows
  obtain ⟨n, notMore, hnot, hn, hnblank⟩ := head_of_spells hg.notWord_ok (by decide)
  simp only [Guard.text, List.append_assoc] at h
  generalize hu : g.afterIf ++ (g.notWord ++ (g.afterNot ++ (g.existsWord ++ (g.afterExists ++ x)))) = u at h
  have hufirst : ∃ d, first u = some d ∧ d.toLower ≠ 'a' ∧ d ≠ '.' ∧ (d ∈ ['(', '-', '/'] ∨ d = n) := by
    rw [← hu]
    obtain h | h | h := hg.afterIf_ok.1.first_append (g.notWord ++ (g.afterNot ++ (g.existsWord ++
      (g.afterExists ++ x)))) (by rw [hnot]; rfl) hnblank
    · exact ⟨_, h, by decide, by decide, .inl (by decide)⟩
    · exact ⟨_, h, by decide, by decide, .inl (by decide)⟩
    · refine ⟨n, h, by rw [hn]; decide, ?_, .inr rfl⟩
      rintro rfl
      exact absurd hn (by decide)
  obtain ⟨d, hd, hda, hdot, hkind⟩ := hufirst
  have hletters : ∀ e ∈ g.ifWord, e.isAlpha = true := fun e he ↦ hg.ifWord_ok.isAlpha (by decide) he
  have hlength : g.ifWord.length = 2 := hg.ifWord_ok.length_eq
  have hne : g.ifWord ≠ [] := List.ne_nil_of_length_eq_add_one hlength
  obtain hle | hlt := le_or_gt g.ifWord.length c.length
  · have hstops : Stops (.bare [] g.ifWord) u := by
      refine stops_of_first rfl hd hdot ?_
      obtain hsign | rfl := hkind
      · exact .inr (step_sign rfl hsign)
      · left
        obtain ⟨b, more, hb⟩ := List.exists_cons_of_ne_nil hg.afterIf_ok.2
        obtain hblank | ⟨blanks, e, rest, hcomment, hblank, he⟩ := hg.afterIf_ok.1.blank_or
        · rw [← hu, hb]
          exact hblank b (hb ▸ List.mem_cons_self)
        · exfalso
          have hnotblank : isJsSpace e = false := by
            have hall : ∀ s ∈ ['-', '/'], isJsSpace s = false := by decide
            exact hall e (by simpa using he)
          rw [← hu, hcomment, List.append_assoc, first_append hblank] at hd
          have hen : e = d := Option.some.inj ((first_cons hnotblank _).symm.trans hd)
          rw [← hen] at hn
          obtain rfl | rfl := he
          · exact absurd hn (by decide)
          · exact absurd hn (by decide)
    obtain ⟨blanks, hblank, -, hq⟩ := eq_append_of_stops (run_word hne hletters) hstops hread h.symm hle
    rw [hq, first_append hblank, hqfirst] at hd
    exact hda (Option.some.inj hd ▸ ha)
  · obtain ⟨i, f, hif⟩ := List.length_eq_two.mp hlength
    have hcne : c ≠ [] := by
      rintro rfl
      cases hread
    obtain ⟨e, more, rfl⟩ := List.exists_cons_of_ne_nil hcne
    rw [hif, List.length_cons, List.length_cons] at hlt
    obtain rfl : more = [] := List.length_eq_zero_iff.mp (Nat.lt_one_iff.mp (Nat.lt_of_succ_lt_succ hlt))
    have hf : f.toLower = 'f' := by
      have hspelled := hg.ifWord_ok
      rw [hif] at hspelled
      exact (List.cons_eq_cons.mp (List.cons_eq_cons.mp hspelled).2).1
    rw [hif] at h
    have hqf : q = f :: u := (List.cons_eq_cons.mp h).2
    have hblank := head_of_asFollows hfollows
    rw [hqf, List.head?_cons, Option.any_some, isJsSpace_of_toLower hf (by decide)] at hblank
    cases hblank

omit hok in
/-- What is captured begins, behind blanks, with what a name begins with. -/
theorem exists_of_read {c : Text} (h : (read c).isSome = true) : ∃ blanks d more, c = blanks ++ d :: more ∧ Blank blanks ∧
    (read (d :: more)).isSome = true ∧ isJsSpace d = false ∧ d ≠ '-' ∧ d ≠ '/' := by
  have hfirst : ∃ d, first c = some d := by
    by_contra hnone
    have hblank : Blank c := by
      have hnil : c.dropWhile isJsSpace = [] := by
        cases hd : c.dropWhile isJsSpace with
        | nil => rfl
        | cons d more => exact absurd ⟨d, by rw [first, hd, List.head?_cons]⟩ hnone
      exact List.dropWhile_eq_nil_iff.mp hnil
    rw [← List.append_nil c, read_blank_append hblank] at h
    cases h
  obtain ⟨d, hd⟩ := hfirst
  obtain ⟨blanks, more, rfl, hblank, hnot⟩ := exists_of_first hd
  rw [read_blank_append hblank] at h
  have hbegins := head_of_read h hnot
  refine ⟨blanks, d, more, rfl, hblank, h, hnot, ?_, ?_⟩
  · rintro rfl
    exact absurd hbegins (by decide)
  · rintro rfl
    exact absurd hbegins (by decide)

omit hok in
/-- Where a guard is found, the guard of the statement has blanks alone. -/
theorem guard_agrees {g g' : Guard} (hg : g.Ok) (hg' : g'.Spaced) {d : Char} {blanks more x y : Text}
    (hblank : Blank blanks) (hd : isJsSpace d = false) (hcomment : d ≠ '-' ∧ d ≠ '/')
    (hy : y.head?.any isJsSpace = false) (h : g'.text ++ (blanks ++ (d :: more ++ x)) = g.text ++ y) :
    (Blank g.afterIf ∧ Blank g.afterNot ∧ Blank g.afterExists ∧ g.afterExists ≠ []) ∧ d :: more ++ x = y := by
  simp only [Guard.text, List.append_assoc] at h
  obtain ⟨-, h⟩ := List.append_inj h (hg'.ifWord_ok.length_eq.trans hg.ifWord_ok.length_eq.symm)
  obtain ⟨n, notMore, hnot, hn, hnblank⟩ := head_of_spells hg'.notWord_ok (by decide)
  have hncomment := not_comment hn (by decide)
  obtain ⟨hif, h⟩ := hg.afterIf_ok.1.eq_blank hg'.afterIf_blank.1 (by rw [hnot]; rfl) hnblank hncomment
    (head_not_blank_of_spells hg.notWord_ok (by decide) _) h
  obtain ⟨-, h⟩ := List.append_inj h (hg'.notWord_ok.length_eq.trans hg.notWord_ok.length_eq.symm)
  obtain ⟨e, existsMore, hexists, he, heblank⟩ := head_of_spells hg'.existsWord_ok (by decide)
  have hecomment := not_comment he (by decide)
  obtain ⟨hnotgap, h⟩ := hg.afterNot_ok.1.eq_blank hg'.afterNot_blank.1 (by rw [hexists]; rfl) heblank hecomment
    (head_not_blank_of_spells hg.existsWord_ok (by decide) _) h
  obtain ⟨-, h⟩ := List.append_inj h (hg'.existsWord_ok.length_eq.trans hg.existsWord_ok.length_eq.symm)
  rw [← List.append_assoc] at h
  have hall : Blank (g'.afterExists ++ blanks) := fun c hc ↦
    (List.mem_append.mp hc).elim (hg'.afterExists_blank.1 c) (hblank c)
  obtain ⟨hexistsgap, h⟩ := hg.afterExists_ok.eq_blank hall rfl hd hcomment hy h
  refine ⟨⟨hif ▸ hg'.afterIf_blank.1, hnotgap ▸ hg'.afterNot_blank.1, hexistsgap ▸ hall, ?_⟩, h⟩
  rw [hexistsgap]
  exact List.append_ne_nil_of_left_ne_nil hg'.afterExists_blank.2 _

theorem head_name (x : Text) : (v.name ++ x).head?.any isJsSpace = false := by
  obtain ⟨c, more, hname⟩ := List.exists_cons_of_ne_nil (name_ne_nil hok)
  have hhead := hok.name_ends.1
  rw [hname] at hhead ⊢
  exact hhead

theorem head_guardText (x : Text) : (v.guardText ++ (v.name ++ x)).head?.any isJsSpace = false := by
  unfold guardText
  cases hguard : v.guard with
  | none => exact head_name hok x
  | some g =>
    have hg := (hok.guard_ok g hguard).1
    rw [Option.map_some, Option.getD_some, Guard.text, List.append_assoc]
    exact head_not_blank_of_spells hg.ifWord_ok (by decide) _

omit hok in
theorem Sep.head_bare {t : Text} (h : Sep t) (x : Text) (hne : t ≠ []) : (t ++ x).head?.any QualifiedName.isBare = false := by
  cases h with
  | nil => exact absurd rfl hne
  | blank hc => exact isBare_of_isJsSpace hc
  | line => rfl
  | block => rfl

/-- There are no modifiers where `VIEW` is found behind `CREATE` and blanks. -/
theorem modifiers_eq_nil {gap viewed gap' x y : Text} (hgap : Blank gap) (hviewed : Spells "view".toList viewed)
    (hgap' : Blank gap' ∧ gap' ≠ []) (h : gap ++ (viewed ++ (gap' ++ x)) =
      v.afterCreate ++ ((v.modifiers.flatMap fun m ↦ m.1 ++ m.2) ++ (v.viewWord ++ y))) :
    v.afterCreate = gap ∧ v.modifiers = [] ∧ gap' ++ x = y := by
  obtain ⟨c, more, hword, hc, hblank⟩ := head_of_spells hviewed (by decide)
  have hcomment := not_comment hc (by decide)
  have hhead : ((v.modifiers.flatMap fun m ↦ m.1 ++ m.2) ++ (v.viewWord ++ y)).head?.any isJsSpace = false := by
    cases hmodifiers : v.modifiers with
    | nil => exact head_not_blank_of_spells hok.viewWord_ok (by decide) _
    | cons m ms =>
      obtain ⟨⟨hne, hbare, -⟩, -⟩ := hok.modifiers_ok m (hmodifiers ▸ List.mem_cons_self)
      obtain ⟨d, rest, hd⟩ := List.exists_cons_of_ne_nil hne
      rw [List.flatMap_cons, hd]
      have hdbare : QualifiedName.isBare d = true := hbare d (hd ▸ List.mem_cons_self)
      cases hspace : isJsSpace d with
      | false => exact hspace
      | true =>
        rw [isBare_of_isJsSpace hspace] at hdbare
        cases hdbare
  obtain ⟨hafter, h⟩ := hok.afterCreate_ok.1.eq_blank hgap (by rw [hword]; rfl) hblank hcomment hhead h
  cases hmodifiers : v.modifiers with
  | cons m ms =>
    obtain ⟨⟨hne, hbare, hview⟩, hsep, hsepne⟩ := hok.modifiers_ok m (hmodifiers ▸ List.mem_cons_self)
    rw [hmodifiers, List.flatMap_cons, List.append_assoc, List.append_assoc] at h
    have hgaphead : (gap' ++ x).head?.any QualifiedName.isBare = false := by
      obtain ⟨b, rest, hb⟩ := List.exists_cons_of_ne_nil hgap'.2
      rw [hb]
      exact isBare_of_isJsSpace (hgap'.1 b (hb ▸ List.mem_cons_self))
    have hletters : ∀ d ∈ viewed, QualifiedName.isBare d = true :=
      fun d hd ↦ isBare_of_isAlpha (hviewed.isAlpha (by decide) hd)
    obtain ⟨hsame, -⟩ := run_append_inj hletters hbare hgaphead (Sep.head_bare hsep _ hsepne) h
    exact absurd (hsame ▸ hviewed) hview
  | nil =>
    rw [hmodifiers, List.flatMap_nil, List.nil_append] at h
    exact ⟨hafter, rfl, (List.append_inj h (hviewed.length_eq.trans hok.viewWord_ok.length_eq.symm)).2⟩

/-- Where the phrase captures a name at the start, blanks alone stand between the words, and the name is captured. -/
theorem front_of_phrase {c : Text} (h : phrase v.statement = some c) (hread : (read c).isSome = true) :
    Blank v.afterCreate ∧ v.modifiers = [] ∧ (Blank v.afterView ∧ v.afterView ≠ []) ∧
      (∀ g, v.guard = some g → Blank g.afterIf ∧ Blank g.afterNot ∧ Blank g.afterExists ∧ g.afterExists ≠ []) ∧
      ∃ blanks back behind, c = blanks ++ (v.name ++ back) ∧ Blank blanks ∧ Blank back ∧ v.rest = back ++ behind ∧
        Captured c behind := by
  obtain ⟨created, gap, viewed, gap', guarded, behind, htext, hcreated, hgap, hviewed, hgap', hguarded, hcaptured⟩ :=
    phrase_eq_some h
  unfold statement at htext
  obtain ⟨-, htext⟩ := List.append_inj htext (hok.createWord_ok.length_eq.trans hcreated.length_eq.symm)
  obtain ⟨hafter, hmodifiers, htext⟩ := modifiers_eq_nil hok hgap.1 hviewed hgap' htext.symm
  obtain ⟨blanks, d, more, rfl, hblank, hreads, hdblank, hdcomment⟩ := exists_of_read hread
  have hfinal (hname : d :: more ++ behind = v.name ++ v.rest) : ∃ front back behind', blanks ++ d :: more =
      front ++ (v.name ++ back) ∧ Blank front ∧ Blank back ∧ v.rest = back ++ behind' ∧
        Captured (blanks ++ d :: more) behind' := by
    obtain ⟨back, hback, heq, hrest⟩ := name_agrees hok hreads hcaptured.follows hname
    exact ⟨blanks, back, behind, by rw [heq], hblank, hback, hrest, hcaptured⟩
  obtain rfl | ⟨g', hg', rfl⟩ := hguarded
  · rw [List.nil_append, List.append_assoc, ← List.append_assoc gap'] at htext
    have hall : Blank (gap' ++ blanks) := fun e he ↦ (List.mem_append.mp he).elim (hgap'.1 e) (hblank e)
    obtain ⟨hview, hname⟩ := hok.afterView_ok.1.eq_blank hall rfl hdblank hdcomment (head_guardText hok v.rest) htext
    have hviewblank : Blank v.afterView ∧ v.afterView ≠ [] := by
      rw [hview]
      exact ⟨hall, List.append_ne_nil_of_left_ne_nil hgap'.2 _⟩
    cases hguard : v.guard with
    | some g =>
      have htextguard : v.guardText = g.text := by
        rw [guardText, hguard]
        rfl
      rw [htextguard] at hname
      exact absurd hname (not_captured_guard (hok.guard_ok g hguard).1 hreads hcaptured.follows _)
    | none =>
      have htextguard : v.guardText = [] := by
        rw [guardText, hguard]
        rfl
      rw [htextguard] at hname
      exact ⟨hafter ▸ hgap.1, hmodifiers, hviewblank, (fun g hg ↦ nomatch hg), hfinal hname⟩
  · obtain ⟨i, ifMore, hif, hi, hiblank⟩ := head_of_spells hg'.ifWord_ok (by decide)
    have hicomment := not_comment hi (by decide)
    have hhead : (g'.text ++ (blanks ++ d :: more ++ behind)).head? = some i := by
      rw [Guard.text, hif]
      rfl
    obtain ⟨hview, hname⟩ := hok.afterView_ok.1.eq_blank hgap'.1 hhead hiblank hicomment (head_guardText hok v.rest) htext
    cases hguard : v.guard with
    | none =>
      have htextguard : v.guardText = [] := by
        rw [guardText, hguard]
        rfl
      rw [htextguard] at hname
      exact absurd hname (not_guard hok hg' _)
    | some g =>
      have htextguard : v.guardText = g.text := by
        rw [guardText, hguard]
        rfl
      rw [htextguard, List.append_assoc] at hname
      obtain ⟨hgaps, hname⟩ := guard_agrees (hok.guard_ok g hguard).1 hg' hblank hdblank hdcomment
        (head_name hok v.rest) hname
      refine ⟨hafter ▸ hgap.1, hmodifiers, hview ▸ hgap', fun g₁ hg₁ ↦ ?_, hfinal hname⟩
      obtain rfl := Option.some.inj hg₁
      exact hgaps

/-- The phrase captures a name at the start of plain statements only, and then it is the statement's. -/
theorem plain_of_phrase {c : Text} (h : phrase v.statement = some c) (hread : (read c).isSome = true) :
    v.Plain ∧ jsTrim c = v.name := by
  obtain ⟨hcreate, hmodifiers, hview, hguard, blanks, back, behind, rfl, hblanks, hback, hrest, hcaptured⟩ :=
    front_of_phrase hok h hread
  obtain ⟨gap, spelled, after, hbehind, hgap, hspelled, hnext⟩ := asFollows_iff.mp hcaptured.follows
  have hcolumns : v.columns = none := by
    obtain ⟨a, hafirst, ha⟩ := first_of_asFollows hcaptured.follows
    obtain ⟨d, hd, hkind⟩ := first_rest hok
    rw [hrest, first_append hback, hafirst] at hd
    obtain rfl := Option.some.inj hd
    obtain hsign | ⟨hnone, -⟩ := hkind
    · have hall : ∀ s ∈ ['(', '-', '/'], s.toLower ≠ 'a' := by decide
      exact absurd ha (hall a hsign)
    · exact hnone
  have hfull : v.rest = v.beforeAs ++ (v.asWord ++ v.body) := by
    rw [rest, hcolumns]
    rfl
  have hgaps : back ++ gap ++ (spelled ++ after) = v.beforeAs ++ (v.asWord ++ v.body) := by
    rw [← hfull, hrest, hbehind, List.append_assoc]
  obtain ⟨a, more, hword, ha, hablank⟩ := head_of_spells hspelled (by decide)
  have hacomment := not_comment ha (by decide)
  have hall : Blank (back ++ gap) := fun e he ↦ (List.mem_append.mp he).elim (hback e) (hgap.1 e)
  obtain ⟨hbefore, hbody⟩ := hok.beforeAs_ok.1.eq_blank hall (by rw [hword]; rfl) hablank hacomment
    (head_not_blank_of_spells hok.asWord_ok (by decide) _) hgaps
  obtain ⟨-, hbody⟩ := List.append_inj hbody (hspelled.length_eq.trans hok.asWord_ok.length_eq.symm)
  refine ⟨⟨hcreate, hmodifiers, hview, hguard, fun before tail hcut hbeforene htail ↦ ?_, hcolumns, ?_, hbody ▸ hnext⟩,
    jsTrim_pad hblanks hback hok.name_ends.1 hok.name_ends.2⟩
  · have hsplit : blanks ++ (v.name ++ back) = blanks ++ before ++ (tail ++ back) := by
      rw [hcut]
      simp only [List.append_assoc]
    have hleast := hcaptured.least _ _ hsplit (List.append_ne_nil_of_right_ne_nil _ hbeforene)
      (List.append_ne_nil_of_left_ne_nil htail _)
    rwa [List.append_assoc, ← hrest] at hleast
  · rw [hbefore]
    exact ⟨hall, List.append_ne_nil_of_right_ne_nil _ hgap.2⟩

/-- The phrase captures the name of a plain statement. -/
theorem phrase_of_plain (hplain : v.Plain) : phrase v.statement = some v.name := by
  have hfull : v.rest = v.beforeAs ++ (v.asWord ++ v.body) := by
    rw [rest, hplain.columns_eq]
    rfl
  have hfollows : asFollows v.rest = true :=
    asFollows_iff.mpr ⟨_, _, _, hfull, hplain.beforeAs_blank, hok.asWord_ok, hplain.body_starts⟩
  have hshortest : shortest asFollows (v.name ++ v.rest) = some v.name :=
    shortest_append (name_ne_nil hok) hfollows hplain.uncut
  have hoptional : Backtrack.optional ifNotExists (shortest asFollows) (v.guardText ++ (v.name ++ v.rest)) =
      some v.name := by
    unfold Backtrack.optional guardText
    cases hguard : v.guard with
    | none =>
      rw [Option.map_none, Option.getD_none, List.nil_append, hshortest]
      cases hfound : ifNotExists (shortest asFollows) (v.name ++ v.rest) with
      | none => rfl
      | some c =>
        obtain ⟨g, x, hg, hname, -⟩ := ifNotExists_eq_some hfound
        exact absurd hname.symm (not_guard hok hg x)
    | some g =>
      have hg := (hok.guard_ok g hguard).1
      obtain ⟨hif, hnot, hexists, hne⟩ := hplain.guard_blank g hguard
      have hspaced : g.Spaced := ⟨hg.ifWord_ok, ⟨hif, hg.afterIf_ok.2⟩, hg.notWord_ok, ⟨hnot, hg.afterNot_ok.2⟩,
        hg.existsWord_ok, ⟨hexists, hne⟩⟩
      rw [Option.map_some, Option.getD_some, ifNotExists_append hspaced (head_name hok v.rest) hshortest, Option.some_or]
  unfold phrase statement
  rw [hplain.modifiers_eq, List.flatMap_nil, List.nil_append, word_append hok.createWord_ok]
  refine spaces_append hok.afterCreate_ok.2 hplain.afterCreate_blank
    (head_not_blank_of_spells hok.viewWord_ok (by decide) _) ?_
  rw [word_append hok.viewWord_ok]
  exact spaces_append hplain.afterView_blank.2 hplain.afterView_blank.1 (head_guardText hok v.rest) hoptional

/-- Where the statement does not begin with the phrase, its name comes from elsewhere. -/
theorem nameIn_of_not_begins (h : ¬v.Begins) (fallbackName : Text) :
    nameIn v.statement fallbackName = v.borrowed fallbackName := by
  have hnone : phrase v.statement = none := Option.not_isSome_iff_eq_none.mp h
  obtain ⟨c, more, hcons, -⟩ := (beginsCreate_statement hok).head
  unfold borrowed nameIn
  rw [hcons] at hnone ⊢
  rw [search, hnone, Option.none_or, List.tail_cons]

theorem nameIn_of_plain (h : v.Plain) (fallbackName : Text) : nameIn v.statement fallbackName = v.name := by
  unfold nameIn
  rw [search_of_start (phrase_of_plain hok h), Option.map_some, Option.getD_some,
    jsTrim_self hok.name_ends.1 hok.name_ends.2]

theorem names_iff (fold : Text → Text) (fallbackName : Text) :
    Names fold (nameIn v.statement fallbackName) v.name ∧ ';' ∉ nameIn v.statement fallbackName ↔
      v.Plain ∧ ';' ∉ v.name ∨
        ¬v.Begins ∧ Names fold (v.borrowed fallbackName) v.name ∧ ';' ∉ v.borrowed fallbackName := by
  constructor
  · rintro ⟨hnames, hsemicolon⟩
    by_cases hbegins : v.Begins
    · obtain ⟨c, hc⟩ := Option.isSome_iff_exists.mp hbegins
      have hname : nameIn v.statement fallbackName = jsTrim c := by
        rw [nameIn, search_of_start hc]
        rfl
      rw [hname] at hnames hsemicolon
      obtain ⟨parts, hread, -⟩ := hnames
      rw [read_jsTrim] at hread
      obtain ⟨hplain, hsame⟩ := plain_of_phrase hok hc (by rw [hread]; rfl)
      exact .inl ⟨hplain, hsame ▸ hsemicolon⟩
    · rw [nameIn_of_not_begins hok hbegins] at hnames hsemicolon
      exact .inr ⟨hbegins, hnames, hsemicolon⟩
  · rintro (⟨hplain, hsemicolon⟩ | ⟨hbegins, hnames, hsemicolon⟩)
    · rw [nameIn_of_plain hok hplain]
      obtain ⟨parts, hread⟩ := Option.isSome_iff_exists.mp hok.name_ok
      exact ⟨⟨parts, hread, by rw [hread, Option.map_some]⟩, hsemicolon⟩
    · rw [nameIn_of_not_begins hok hbegins]
      exact ⟨hnames, hsemicolon⟩

/-- What is done with a statement on engines that drop the view first. -/
theorem applies_iff {engine : Text} (hengine : jsLower engine ∉ orReplaceEngines) (fold : Text → Text)
    (fallbackName : Text) : Replaces fold engine v fallbackName ∧ RoundTrips engine v.text fallbackName ↔
      Blank v.lead ∧ Names fold (nameIn v.statement fallbackName) v.name ∧ ';' ∉ nameIn v.statement fallbackName := by
  by_cases hlead : Blank v.lead
  · have hstatement := statementOf_text hok hlead
    have hview : isViewText (statementOf v.text) = true := hstatement ▸ isViewText_statement hok
    have hplan : buildViewApply engine v.text fallbackName =
        .ok [dropView (nameIn v.statement fallbackName), v.statement] := by
      rw [buildViewApply, hview, hstatement, if_neg (by decide), if_neg hengine]
    rw [roundTrips_iff hengine hview, hstatement, and_iff_right hlead]
    refine and_congr_left fun _ ↦ ?_
    constructor
    · rintro ⟨name, hnames, hsame⟩
      rw [hplan] at hsame
      have hdrop := (List.cons_eq_cons.mp (Except.ok.inj hsame)).1
      rwa [List.append_cancel_left hdrop]
    · exact fun hnames ↦ ⟨_, hnames, hplan⟩
  · refine iff_of_false ?_ fun h ↦ hlead h.1
    rintro ⟨⟨name, -, hplan⟩, -⟩
    have hview : isViewText (statementOf v.text) = false :=
      Bool.eq_false_iff.mpr fun h ↦ hlead (blank_of_isViewText hok h)
    rw [buildViewApply, hview] at hplan
    cases hplan

end CreateView

/-- A statement without blanks but one between any two words. -/
def viewNamed (name : String) (columns : Option (Text × Text)) : CreateView where
  lead := []
  createWord := "CREATE".toList
  afterCreate := [' ']
  modifiers := []
  viewWord := "VIEW".toList
  afterView := [' ']
  guard := none
  name := name.toList
  columns := columns
  beforeAs := [' ']
  asWord := "AS".toList
  body := " SELECT 1".toList
  close := [';']

theorem viewNamed_ok {name : String} {columns : Option (Text × Text)} (hread : (read name.toList).isSome = true)
    (hends : name.toList.head?.any isJsSpace = false ∧ name.toList.getLast?.any isJsSpace = false)
    (hcolumns : ∀ c, columns = some c → Sep c.1 ∧ ∃ inner, c.2 = '(' :: inner) : (viewNamed name columns).Ok where
  lead_ok := .nil
  createWord_ok := rfl
  afterCreate_ok := ⟨.blank (by decide) .nil, List.cons_ne_nil _ _⟩
  modifiers_ok := fun _ hm ↦ nomatch hm
  viewWord_ok := rfl
  afterView_ok := ⟨.blank (by decide) .nil, .inl (List.cons_ne_nil _ _)⟩
  guard_ok := fun _ hg ↦ nomatch hg
  name_ok := hread
  name_ends := hends
  columns_ok := hcolumns
  beforeAs_ok := ⟨.blank (by decide) .nil, fun _ ↦ .inl (List.cons_ne_nil _ _)⟩
  asWord_ok := rfl
  close_ok := .inl ⟨[], blank_nil, rfl⟩

theorem viewNamed_plain (name : String) (huncut : ∀ before after, name.toList = before ++ after → before ≠ [] →
    after ≠ [] → asFollows (after ++ (viewNamed name none).rest) = false) : (viewNamed name none).Plain where
  afterCreate_blank := List.forall_mem_singleton.mpr (by decide)
  modifiers_eq := rfl
  afterView_blank := ⟨List.forall_mem_singleton.mpr (by decide), List.cons_ne_nil _ _⟩
  guard_blank := fun _ hg ↦ nomatch hg
  uncut := huncut
  columns_eq := rfl
  beforeAs_blank := ⟨List.forall_mem_singleton.mpr (by decide), List.cons_ne_nil _ _⟩
  body_starts := rfl

end Squaero.Front.ViewApply
