import Squaero.Front.SchemaDiff

/-!
# Migration scripts

`generateMigration` of `frontend/src/utils/schemaDiff.ts`, with its default options: the statements that make one
schema match another, in the order of their dependencies, and the comments between them.
-/

namespace Squaero.Front.Schemas

open Squaero.Lib

inductive IssueCode
  | mongodb
  | sqliteAlterColumn
  | sqliteConstraint
  | sqliteNotNullColumn
  | mssqlDefault
  | noConstraintName
  | dropTableSkipped
  | possibleRename
  | skippedIndex
  | informixModify
  | crossEngine
  | fkCycle
  deriving DecidableEq

def issueText : IssueCode → Text
  | .mongodb => "MongoDB has no SQL schema; a migration script cannot be generated".toList
  | .sqliteAlterColumn =>
    "SQLite cannot change a column's type, nullability or default in place; the table must be rebuilt".toList
  | .sqliteConstraint => "SQLite cannot add or remove a constraint on an existing table; the table must be rebuilt".toList
  | .sqliteNotNullColumn => "SQLite cannot add a NOT NULL column without a default".toList
  | .mssqlDefault =>
    "SQL Server keeps defaults as named constraints, whose names are not read; change the default by hand".toList
  | .noConstraintName => "the constraint's name was not read, so it cannot be dropped".toList
  | .dropTableSkipped => "exists only in the target; DROP TABLE not generated".toList
  | .possibleRename => ("a column is dropped and one of the same type added; if it is a rename, " ++
      "rename it instead to keep its data").toList
  | .skippedIndex => "index on expressions, partial or not B-tree; not compared".toList
  | .informixModify => ("Informix MODIFY redefines the whole column; a DEFAULT it had " ++
      "(not readable from the catalog) is lost unless re-added").toList
  | .crossEngine =>
    "different engines: types, defaults, checks and view definitions are copied verbatim; review them".toList
  | .fkCycle => "foreign keys form a cycle; they are added once every table exists".toList

/-- An issue, which is a comment of the script too. -/
structure ScriptIssue where
  isUnsupported : Bool
  code : IssueCode
  object : Text
  detail : Option Text

/-- One element of `statements`, by what it is. -/
inductive Line
  | issue (i : ScriptIssue)
  | notCompared (nc : NotCompared)
  | statement (text : Text)
  | createTable (t : TableDef)
  | createView (v : ViewDef)

def commaSpace : Text := ", ".toList

section

variable (e : Text)

def family : Text := engineFamily e

def isFamily (name : String) : Bool := engineFamily e = name.toList

def q (id : Text) : Text := quoteIdentifier id e

/-- `qualifiedName` without a container. -/
def qt (name : Text) : Text := if name = [] then [] else quoteIdentifier name e

def qcols (cols : List Text) : Text := commaSpace.intercalate (cols.map (q e))

/-! ## Clauses -/

/-- A constraint with its name, if it has one; Informix names it behind its definition. -/
def named (body : Text) (name : Option Text) : Text :=
  match name with
  | none => body
  | some [] => body
  | some name =>
    if isFamily e "informix" then body ++ " CONSTRAINT ".toList ++ q e name
    else "CONSTRAINT ".toList ++ q e name ++ ' ' :: body

def pkBody (p : KeyDef) : Text := "PRIMARY KEY (".toList ++ qcols e p.columns ++ [')']

def uniqueBody (u : KeyDef) : Text := "UNIQUE (".toList ++ qcols e u.columns ++ [')']

def checkBody (ch : CheckDef) : Text := "CHECK (".toList ++ ch.expr ++ [')']

def fkBody (fk : ForeignKeyDef) : Text :=
  "FOREIGN KEY (".toList ++ qcols e fk.columns ++ ") REFERENCES ".toList ++ qt e fk.refTable ++ " (".toList ++
    qcols e fk.refColumns ++ [')']

def columnClause (col : ColumnDef) : Text :=
  q e col.name ++ ' ' :: (if col.type = [] then "TEXT".toList else col.type) ++
    (match col.dflt with
      | none => []
      | some [] => []
      | some d => " DEFAULT ".toList ++ d) ++
    if col.notnull then " NOT NULL".toList else []

def alterTable (table : Text) : Text := "ALTER TABLE ".toList ++ qt e table ++ [' ']

def addConstraint (table body : Text) (name : Option Text) : Line :=
  .statement (alterTable e table ++ (if isFamily e "informix" then "ADD CONSTRAINT ".toList else "ADD ".toList) ++
    named e body name ++ [';'])

def unsupported (code : IssueCode) (object : Text) (detail : Option Text) : Line := .issue ⟨true, code, object, detail⟩

def note (code : IssueCode) (object : Text) (detail : Option Text) : Line := .issue ⟨false, code, object, detail⟩

inductive ConstraintKind
  | primary
  | unique
  | foreign
  | check
  deriving DecidableEq

/-- What MySQL calls it, a primary key apart. -/
def ConstraintKind.word : ConstraintKind → Text
  | primary => "PRIMARY KEY".toList
  | unique => "INDEX".toList
  | foreign => "FOREIGN KEY".toList
  | check => "CHECK".toList

def dropConstraint (table : Text) (kind : ConstraintKind) (name : Option Text) (label : Text) : Line :=
  if isFamily e "sqlite" then unsupported .sqliteConstraint table (some ("DROP ".toList ++ label))
  else if isFamily e "mysql" ∧ kind = .primary then .statement (alterTable e table ++ "DROP PRIMARY KEY;".toList)
  else
    match name with
    | none => unsupported .noConstraintName table (some label)
    | some [] => unsupported .noConstraintName table (some label)
    | some name =>
      .statement (alterTable e table ++ "DROP ".toList ++
        (if isFamily e "mysql" then kind.word else "CONSTRAINT".toList) ++ ' ' :: (q e name ++ [';']))

def createIndex (table : Text) (ix : IndexDef) : Line :=
  .statement ("CREATE ".toList ++ (if ix.unique then "UNIQUE ".toList else []) ++ "INDEX ".toList ++ q e ix.name ++
    " ON ".toList ++ qt e table ++ " (".toList ++ qcols e ix.columns ++ ");".toList)

def dropIndex (table : Text) (ix : IndexDef) : Line :=
  .statement (if isFamily e "mysql" || isFamily e "mssql" then
      "DROP INDEX ".toList ++ q e ix.name ++ " ON ".toList ++ qt e table ++ [';']
    else "DROP INDEX ".toList ++ qt e ix.name ++ [';'])

/-- The clauses of a new table, its columns first. -/
def tableDefs (t : TableDef) : List Text :=
  t.columns.map (columnClause e) ++ (t.primaryKey.toList.map fun p ↦ named e (pkBody e p) p.name) ++
    (t.uniques.map fun u ↦ named e (uniqueBody e u) u.name) ++ (t.checks.map fun x ↦ named e (checkBody x) x.name) ++
    if isFamily e "sqlite" then t.foreignKeys.map fun fk ↦ named e (fkBody e fk) fk.name else []

def createTableText (t : TableDef) : Text :=
  "CREATE TABLE ".toList ++ qt e t.name ++ " (\n".toList ++
    ",\n".toList.intercalate ((tableDefs e t).map fun d ↦ "  ".toList ++ d) ++ "\n);".toList

/-! ## View definitions -/

/-- The text behind a name, quoted or bare. -/
def behindIdent : Pattern
  | '`' :: rest => behindFirst ['`'] rest
  | '"' :: rest => behindFirst ['"'] rest
  | '[' :: rest => behindFirst [']'] rest
  | c :: rest => if isSplitWord c then some (rest.dropWhile isSplitWord) else none
  | [] => none

/-- `\s*[.:]\s*` -/
def behindDot (text : Text) : Option Text :=
  match text.dropWhile isJsSpace with
  | '.' :: rest => some (rest.dropWhile isJsSpace)
  | ':' :: rest => some (rest.dropWhile isJsSpace)
  | _ => none

/-- `(?:IDENT\s*[.:]\s*)*IDENT` -/
def behindName : ℕ → Pattern
  | 0, _ => none
  | fuel + 1, text =>
    (behindIdent text).bind fun rest ↦
      ((behindDot rest).bind (behindName fuel)).or (some rest)

/-- `\s+`, and the text behind. -/
def behindSpaces (text : Text) : Option Text :=
  if text.head?.any isJsSpace then some (text.dropWhile isJsSpace) else none

/-- `word\s+`, whatever its letters' case. -/
def behindSpaced (word text : Text) : Option Text :=
  if word.isPrefixOf (text.map Char.toLower) then behindSpaces (text.drop word.length) else none

/-- `\bview\s+(?:if\s+not\s+exists\s+)?` and the name, which starts at the first text and ends before the second. -/
def viewName (before : Option Char) (text : Text) : Option (Text × Text) :=
  if before.any Gate.SafeMode.isRegexWord then none
  else
    (behindSpaced "view".toList text).bind fun rest ↦
      let guarded := ((behindSpaced "if".toList rest).bind (behindSpaced "not".toList)).bind (behindSpaced "exists".toList)
      (guarded.bind fun rest ↦ (behindName rest.length rest).map fun behind ↦ (rest, behind)).or
        ((behindName rest.length rest).map fun behind ↦ (rest, behind))

/-- The first view whose name is found. -/
def findView : Option Char → Text → Option (Text × Text)
  | before, text =>
    (viewName before text).or
      (match text with
      | [] => none
      | c :: rest => findView (some c) rest)

/-- The head that `retargetViewDdl` looks for: the text from the name on, and the text behind the name. -/
def viewHead (ddl : Text) : Option (Text × Text) :=
  let text := ddl.dropWhile isJsSpace
  if wordHere "create".toList none text then findView (some 'e') (text.drop "create".length) else none

/-- `retargetViewDdl` without containers: the name after `VIEW` becomes `qualified`. -/
def retargetViewDdl (ddl qualified : Text) : Text :=
  match viewHead ddl with
  | some (name, behind) => ddl.take (ddl.length - name.length) ++ qualified ++ behind
  | none => ddl

def createViewText (v : ViewDef) : Text := retargetViewDdl (withoutSemicolon (jsTrim v.ddl)) (qt e v.name) ++ [';']

/-! ## Columns -/

def changeText (cc : ColumnChange) : Text :=
  let parts :=
    [if cc.type then cc.before.type ++ " -> ".toList ++ cc.after.type else [],
      if cc.nullability then (if cc.after.notnull then "NOT NULL".toList else "NULL".toList) else [],
      if cc.dflt then "DEFAULT ".toList ++ cc.after.dflt.getD "none".toList else []]
  commaSpace.intercalate (parts.filter (· ≠ []))

def dotted (table column : Text) : Text := table ++ '.' :: column

/-- `noted` says whether Informix' warning has been given. -/
def alterColumn (noted : Bool) (table : Text) (cc : ColumnChange) : List Line :=
  let t := alterTable e table
  let col := q e cc.name
  if isFamily e "sqlite" then [unsupported .sqliteAlterColumn (dotted table cc.name) (some (changeText cc))]
  else if isFamily e "mysql" then
    [.statement (t ++ "MODIFY COLUMN ".toList ++ columnClause e cc.after ++ [';'])]
  else if isFamily e "informix" then
    (if noted then [] else [note .informixModify table none]) ++
      [.statement (t ++ "MODIFY (".toList ++ columnClause e cc.after ++ ");".toList)]
  else if isFamily e "mssql" then
    (if cc.type ∨ cc.nullability then
      [.statement (t ++ "ALTER COLUMN ".toList ++ col ++ ' ' :: cc.after.type ++
        (if cc.after.notnull then " NOT NULL;".toList else " NULL;".toList))]
    else []) ++
      if cc.dflt then
        [unsupported .mssqlDefault (dotted table cc.name) (some ("DEFAULT ".toList ++ cc.after.dflt.getD "none".toList))]
      else []
  else
    (if cc.type then [.statement (t ++ "ALTER COLUMN ".toList ++ col ++ " TYPE ".toList ++ cc.after.type ++ [';'])]
      else []) ++
    (if cc.nullability then
      [.statement (t ++ "ALTER COLUMN ".toList ++ col ++
        (if cc.after.notnull then " SET".toList else " DROP".toList) ++ " NOT NULL;".toList)]
      else []) ++
    if cc.dflt then
      [.statement (t ++ "ALTER COLUMN ".toList ++ col ++
        (if cc.after.dflt.getD [] = [] then " DROP DEFAULT;".toList
          else " SET DEFAULT ".toList ++ cc.after.dflt.getD [] ++ [';']))]
    else []

def alterColumns (table : Text) : Bool → List ColumnChange → List Line
  | _, [] => []
  | noted, cc :: changed => alterColumn e noted table cc ++ alterColumns table true changed

def addColumn (table : Text) (col : ColumnDef) : Line :=
  if isFamily e "sqlite" ∧ col.notnull ∧ col.dflt.getD [] = [] then
    unsupported .sqliteNotNullColumn (dotted table col.name) none
  else
    .statement (alterTable e table ++ (if isFamily e "mssql" || isFamily e "informix" then "ADD ".toList
      else "ADD COLUMN ".toList) ++ columnClause e col ++ [';'])

def dropColumn (table : Text) (col : ColumnDef) : Line :=
  .statement (alterTable e table ++ (if isFamily e "informix" then "DROP ".toList else "DROP COLUMN ".toList) ++
    q e col.name ++ [';'])

def addOrFlag (table body : Text) (name : Option Text) : Line :=
  if isFamily e "sqlite" then unsupported .sqliteConstraint table (some ("ADD ".toList ++ body))
  else addConstraint e table body name

variable (k : Text → Text)

/-- Step 6. -/
def columnLines : Bool → List TableChange → List Line
  | _, [] => []
  | noted, ch :: changes =>
    ch.added.map (addColumn e ch.name) ++ alterColumns e ch.name noted ch.changed ++
      ch.removed.map (dropColumn e ch.name) ++
      (ch.removed.filterMap fun r ↦ (ch.added.find? fun x ↦ normType k x.type = normType k r.type).map fun a ↦
        note .possibleRename ch.name (some (r.name ++ " -> ".toList ++ a.name))) ++
      columnLines (noted || ch.changed ≠ []) changes

/-! ## The script -/

/-- Steps 2 and 3 for one table. -/
def foreignKeyDrops (ch : TableChange) : List Line :=
  ch.foreignKeys.removed.map fun fk ↦ dropConstraint e ch.name .foreign fk.name (fkBody e fk)

def constraintDrops (ch : TableChange) : List Line :=
  (ch.checks.removed.map fun x ↦ dropConstraint e ch.name .check x.name (checkBody x)) ++
    (ch.uniques.removed.map fun u ↦ dropConstraint e ch.name .unique u.name (uniqueBody e u)) ++
    ch.indexes.removed.map (dropIndex e ch.name) ++
    (ch.pk.bind (·.before)).toList.map fun p ↦ dropConstraint e ch.name .primary p.name (pkBody e p)

/-- Step 7 for one table; on SQLite a changed key was flagged at its drop. -/
def constraintAdds (ch : TableChange) : List Line :=
  (ch.pk.toList.flatMap fun pk ↦ pk.after.toList.flatMap fun p ↦
      if isFamily e "sqlite" ∧ pk.before.isSome then [] else [addOrFlag e ch.name (pkBody e p) p.name]) ++
    (ch.uniques.added.map fun u ↦ addOrFlag e ch.name (uniqueBody e u) u.name) ++
    (ch.checks.added.map fun x ↦ addOrFlag e ch.name (checkBody x) x.name) ++
    ch.indexes.added.map (createIndex e ch.name)

/-- `addedTables.find((t) => k(t.name) === k(n))!.foreignKeys.map((fk) => fk.refTable)` -/
def referenced (tables : List TableDef) (n : Text) : List Text :=
  ((tables.find? fun t ↦ k t.name = k n).map fun t ↦ t.foreignKeys.map (·.refTable)).getD []

/-- The items in the order of their names. -/
def byOrder {α : Type} (name : α → Text) (items : List α) (names : List Text) : List α :=
  names.filterMap fun n ↦ items.find? fun x ↦ name x = n

def createdOrder (tables : List TableDef) : List Text × List Text :=
  orderByDependencies k (tables.map (·.name)) (referenced k tables)

def createdTables (tables : List TableDef) : List TableDef :=
  byOrder (·.name) tables (createdOrder k tables).1

def viewOrder (views : List ViewDef) : List Text :=
  (orderByDependencies k (views.map (·.name)) (viewDeps k views [])).1

def createdViews (views : List ViewDef) : List ViewDef :=
  byOrder (·.name) views (viewOrder k views)

def newViews (diff : SchemaDiff) : List ViewDef := diff.addedViews ++ diff.changedViews.map Prod.fst

def header (diff : SchemaDiff) : List Line :=
  diff.notCompared.map .notCompared ++ (diff.skipped.map fun s ↦ note .skippedIndex s none) ++
    if family diff.sourceEngine ≠ family e then
      [note .crossEngine (diff.sourceEngine ++ " -> ".toList ++ e) none]
    else []

/-- Steps 1 to 4: what goes away. -/
def dropLines (diff : SchemaDiff) : List Line :=
  (viewOrder k (diff.removedViews ++ diff.changedViews.map Prod.snd)).reverse.map
      (fun n ↦ .statement ("DROP VIEW ".toList ++ qt e n ++ [';'])) ++
    diff.changedTables.flatMap (foreignKeyDrops e) ++ diff.changedTables.flatMap (constraintDrops e) ++
    diff.removedTables.map fun t ↦ note .dropTableSkipped t.name none

def cycleNote (tables : List TableDef) : List Line :=
  if (createdOrder k tables).2 ≠ [] ∧ ¬ isFamily e "sqlite" then
    [note .fkCycle (commaSpace.intercalate (createdOrder k tables).2) none]
  else []

/-- Steps 6 to 8: what changes. -/
def changeLines (diff : SchemaDiff) : List Line :=
  columnLines e k false diff.changedTables ++ diff.changedTables.flatMap (constraintAdds e) ++
    ((createdTables k diff.addedTables).flatMap fun t ↦ t.indexes.map (createIndex e t.name)) ++
    (if isFamily e "sqlite" then []
      else (createdTables k diff.addedTables).flatMap fun t ↦
        t.foreignKeys.map fun fk ↦ addConstraint e t.name (fkBody e fk) fk.name) ++
    diff.changedTables.flatMap fun ch ↦ ch.foreignKeys.added.map fun fk ↦ addOrFlag e ch.name (fkBody e fk) fk.name

end

def generateMigration (k : Text → Text) (diff : SchemaDiff) : List Line :=
  let e := diff.targetEngine
  match [diff.sourceEngine, e].find? fun side ↦ engineFamily side = "mongodb".toList with
  | some side => [unsupported .mongodb side none]
  | none =>
    header e diff ++ dropLines e k diff ++ cycleNote e k diff.addedTables ++
      (createdTables k diff.addedTables).map .createTable ++ changeLines e k diff ++
      (createdViews k (newViews diff)).map .createView

def sideText : Side → Text
  | .source => "source".toList
  | .target => "target".toList

def categoryText : Category → Text
  | .constraints => "constraints".toList
  | .checks => "checks".toList
  | .indexes => "indexes".toList
  | .views => "views".toList
  | .defaults => "defaults".toList

/-- An element of `statements` for the engine `e`. -/
def Line.text (e : Text) : Line → Text
  | .issue i =>
    (if i.isUnsupported then "-- UNSUPPORTED: ".toList else "-- NOTE: ".toList) ++ i.object ++ ": ".toList ++
      issueText i.code ++
      match i.detail with
      | none => []
      | some [] => []
      | some d => " (".toList ++ d ++ [')']
  | .notCompared nc =>
    "-- NOTE: ".toList ++ categoryText nc.category ++ " not compared (".toList ++ sideText nc.side ++ commaSpace ++
      nc.engine ++ ": ".toList ++ (if nc.reason = [] then "no catalog for this engine".toList else nc.reason) ++ [')']
  | .statement text => text
  | .createTable t => createTableText e t
  | .createView v => createViewText e v

/-! ## Items in the order of their names -/

section

open DependencyOrder

variable {k : Text → Text} {α : Type} {name : α → Text} {items : List α}
  (hnames : (items.map fun x ↦ k (name x)).Nodup)

include hnames

theorem eq_of_folded {a b : α} (ha : a ∈ items) (hb : b ∈ items) (h : k (name a) = k (name b)) : a = b :=
  List.inj_on_of_nodup_map hnames ha hb h

theorem find?_name {a : α} (ha : a ∈ items) {p : α → Bool} (hp : p a = true)
    (honly : ∀ b ∈ items, p b = true → k (name b) = k (name a)) : items.find? p = some a := by
  obtain ⟨b, hb⟩ := Option.isSome_iff_exists.mp (List.find?_isSome.mpr ⟨a, ha, hp⟩)
  have hmem := List.mem_of_find?_eq_some hb
  rw [hb, eq_of_folded hnames hmem ha (honly b hmem (List.find?_some hb))]

theorem find?_same {a : α} (ha : a ∈ items) : items.find? (fun x ↦ name x = name a) = some a :=
  find?_name hnames ha (decide_eq_true rfl) fun _ _ hb ↦ congrArg k (of_decide_eq_true hb)

theorem nodup_folded : ((items.map name).map k).Nodup := by
  rw [List.map_map]
  exact hnames

theorem byOrder_perm {names : List Text} (h : names.Perm (items.map name)) : (byOrder name items names).Perm items := by
  have hall : byOrder name items (items.map name) = items := by
    unfold byOrder
    rw [List.filterMap_map]
    exact (List.filterMap_congr fun a ha ↦ find?_same hnames ha).trans List.filterMap_some
  have hperm := h.filterMap fun n ↦ items.find? fun x ↦ name x = n
  rw [show (items.map name).filterMap (fun n ↦ items.find? fun x ↦ name x = n) = items from hall] at hperm
  exact hperm

theorem byOrder_precedes {names : List Text} {a b : α} (ha : a ∈ items) (hb : b ∈ items)
    (h : Precedes names (name b) (name a)) : Precedes (byOrder name items names) b a := by
  obtain ⟨before, after, rfl, hmem⟩ := h
  refine ⟨byOrder name items before, byOrder name items after, ?_, List.mem_filterMap.mpr ⟨name b, hmem, find?_same hnames hb⟩⟩
  unfold byOrder
  rw [List.filterMap_append, List.filterMap_cons, find?_same hnames ha]

/-- `a` depends on `b`. -/
def DependsOn (k : Text → Text) (name : α → Text) (items : List α) (deps : Text → List Text) (a b : α) : Prop :=
  a ∈ items ∧ b ∈ items ∧ k (name b) ≠ k (name a) ∧ ∃ d ∈ deps (name a), k d = k (name b)

variable {deps : Text → List Text}

theorem needs_iff {a b : α} (ha : a ∈ items) (hb : b ∈ items) :
    Needs k (needOf k (items.map name) deps) (items.map name) (name a) (name b) ↔
      DependsOn k name items deps a b := by
  have hlookup : lookup (items.map name) k (k (name a)) = some (name a) :=
    lookup_of_nodup (nodup_folded hnames) (List.mem_map_of_mem ha)
  have hmem : k (name b) ∈ (items.map name).map k := List.mem_map_of_mem (List.mem_map_of_mem hb)
  unfold Needs DependsOn needOf
  rw [hlookup]
  simp only [Option.toList_some, List.flatMap_cons, List.flatMap_nil, List.append_nil, List.mem_filter, List.mem_map,
    decide_eq_true_eq, ne_eq]
  constructor
  · rintro ⟨-, -, ⟨d, hd, heq⟩, hne, -⟩
    exact ⟨ha, hb, hne, d, hd, heq⟩
  · rintro ⟨-, -, hne, d, hd, heq⟩
    exact ⟨⟨a, ha, rfl⟩, ⟨b, hb, rfl⟩, ⟨d, hd, heq⟩, hne, name b, ⟨b, hb, rfl⟩, rfl⟩

theorem ordered_perm : (byOrder name items (orderByDependencies k (items.map name) deps).1).Perm items :=
  byOrder_perm hnames (order_perm (nodup_folded hnames))

theorem ordered_precedes {a b : α} (h : DependsOn k name items deps a b)
    (hb : ¬ OnOrBehindCycle (DependsOn k name items deps) b) :
    Precedes (byOrder name items (orderByDependencies k (items.map name) deps).1) b a := by
  obtain ⟨hmema, hmemb, -⟩ := id h
  refine byOrder_precedes hnames hmema hmemb ?_
  refine order_precedes (nodup_folded hnames) ((needs_iff hnames hmema hmemb).mpr h) fun hcycle ↦ hb ?_
  refine OnOrBehindCycle.lift (s := (· ∈ items)) ?_ ?_ hmemb hcycle
  · intro c hc n hn
    obtain ⟨d, hd, rfl⟩ := List.mem_map.mp hn.2.1
    exact ⟨d, hd, rfl, (needs_iff hnames hc hd).mp hn⟩
  · exact fun c d hc hd heq ↦ eq_of_folded hnames hc hd (congrArg k heq)

end

/-! ## References and reads -/

open DependencyOrder

variable (k : Text → Text)

def References (tables : List TableDef) (t u : TableDef) : Prop :=
  t ∈ tables ∧ u ∈ tables ∧ k u.name ≠ k t.name ∧ ∃ fk ∈ t.foreignKeys, k fk.refTable = k u.name

/-- The query of `v` mentions the name of `w`. -/
def Reads (views : List ViewDef) (v w : ViewDef) : Prop :=
  v ∈ views ∧ w ∈ views ∧ k w.name ≠ k v.name ∧ mentions (k w.name) none (k ((viewQuery v.ddl).getD v.ddl)) = true

variable {k}

theorem dependsOn_referenced {tables : List TableDef} (h : (tables.map fun t ↦ k t.name).Nodup) :
    DependsOn k (·.name) tables (referenced k tables) = References k tables := by
  funext t u
  refine propext (and_congr_right fun ht ↦ and_congr_right fun _ ↦ and_congr_right fun _ ↦ ?_)
  have hfind : tables.find? (fun x ↦ k x.name = k t.name) = some t :=
    find?_name h ht (decide_eq_true rfl) fun _ _ hx ↦ of_decide_eq_true hx
  unfold referenced
  rw [hfind]
  simp

theorem dependsOn_viewDeps {views : List ViewDef} (h : (views.map fun v ↦ k v.name).Nodup) :
    DependsOn k (·.name) views (viewDeps k views []) = Reads k views := by
  funext v w
  refine propext (and_congr_right fun hv ↦ and_congr_right fun hw ↦ and_congr_right fun hne ↦ ?_)
  have hlookup : lookup views (fun x ↦ k x.name) (k v.name) = some v := lookup_of_nodup h hv
  unfold viewDeps
  rw [hlookup]
  simp only [Option.map_some, Option.getD_some, List.append_nil, List.mem_filter, List.mem_map, decide_eq_true_eq]
  constructor
  · rintro ⟨d, ⟨-, hmentions⟩, heq⟩
    rwa [heq] at hmentions
  · exact fun hmentions ↦ ⟨w.name, ⟨⟨⟨w, hw, rfl⟩, hne⟩, hmentions⟩, rfl⟩

/-! ## Heads of views -/

theorem behindFirst_suffix {mark text behind : Text} (h : behindFirst mark text = some behind) : behind <:+ text := by
  obtain ⟨body, rfl, -⟩ := eq_append_of_behindFirst h
  exact List.suffix_append body behind

theorem behindIdent_suffix {text behind : Text} (h : behindIdent text = some behind) : behind <:+ text := by
  unfold behindIdent at h
  split at h
  · exact (behindFirst_suffix h).trans (List.suffix_cons _ _)
  · exact (behindFirst_suffix h).trans (List.suffix_cons _ _)
  · exact (behindFirst_suffix h).trans (List.suffix_cons _ _)
  · split_ifs at h
    obtain rfl := Option.some.inj h
    exact (List.dropWhile_suffix _).trans (List.suffix_cons _ _)
  · exact absurd h nofun

theorem behindDot_suffix {text behind : Text} (h : behindDot text = some behind) : behind <:+ text := by
  unfold behindDot at h
  have hdropped := List.dropWhile_suffix (l := text) isJsSpace
  split at h
  next rest hrest =>
    obtain rfl := Option.some.inj h
    rw [hrest] at hdropped
    exact ((List.dropWhile_suffix _).trans (List.suffix_cons _ _)).trans hdropped
  next rest hrest =>
    obtain rfl := Option.some.inj h
    rw [hrest] at hdropped
    exact ((List.dropWhile_suffix _).trans (List.suffix_cons _ _)).trans hdropped
  next => exact absurd h nofun

theorem behindName_suffix {fuel : ℕ} {text behind : Text} (h : behindName fuel text = some behind) : behind <:+ text := by
  induction fuel generalizing text with
  | zero => exact absurd h nofun
  | succ fuel ih =>
    unfold behindName at h
    obtain ⟨rest, hident, hmore⟩ := Option.bind_eq_some_iff.mp h
    refine List.IsSuffix.trans ?_ (behindIdent_suffix hident)
    rcases Option.or_eq_some_iff.mp hmore with hnext | ⟨-, hlast⟩
    · obtain ⟨dotted, hdot, hname⟩ := Option.bind_eq_some_iff.mp hnext
      exact (ih hname).trans (behindDot_suffix hdot)
    · exact Option.some.inj hlast ▸ List.suffix_refl rest

theorem behindSpaced_suffix {word text behind : Text} (h : behindSpaced word text = some behind) : behind <:+ text := by
  unfold behindSpaced behindSpaces at h
  split_ifs at h
  obtain rfl := Option.some.inj h
  exact (List.dropWhile_suffix _).trans (List.drop_suffix _ _)

theorem viewName_suffix {before : Option Char} {text name behind : Text}
    (h : viewName before text = some (name, behind)) : name <:+ text ∧ behind <:+ name := by
  unfold viewName at h
  split_ifs at h
  obtain ⟨rest, hview, hname⟩ := Option.bind_eq_some_iff.mp h
  rcases Option.or_eq_some_iff.mp hname with hguarded | ⟨-, hplain⟩
  · obtain ⟨guarded, hwords, hfound⟩ := Option.bind_eq_some_iff.mp hguarded
    obtain ⟨end_, hend, heq⟩ := Option.map_eq_some_iff.mp hfound
    obtain ⟨rfl, rfl⟩ := Prod.mk.inj heq
    obtain ⟨second, hsecond, hexists⟩ := Option.bind_eq_some_iff.mp hwords
    obtain ⟨first, hif, hnot⟩ := Option.bind_eq_some_iff.mp hsecond
    refine ⟨?_, behindName_suffix hend⟩
    exact (((behindSpaced_suffix hexists).trans (behindSpaced_suffix hnot)).trans (behindSpaced_suffix hif)).trans
      (behindSpaced_suffix hview)
  · obtain ⟨end_, hend, heq⟩ := Option.map_eq_some_iff.mp hplain
    obtain ⟨rfl, rfl⟩ := Prod.mk.inj heq
    exact ⟨behindSpaced_suffix hview, behindName_suffix hend⟩

theorem findView_suffix {before : Option Char} {text name behind : Text}
    (h : findView before text = some (name, behind)) : name <:+ text ∧ behind <:+ name := by
  induction text generalizing before with
  | nil =>
    unfold findView at h
    rcases Option.or_eq_some_iff.mp h with hhere | ⟨-, hlater⟩
    · exact viewName_suffix hhere
    · exact absurd hlater nofun
  | cons c rest ih =>
    unfold findView at h
    rcases Option.or_eq_some_iff.mp h with hhere | ⟨-, hlater⟩
    · exact viewName_suffix hhere
    · obtain ⟨hname, hbehind⟩ := ih hlater
      exact ⟨hname.trans (List.suffix_cons c rest), hbehind⟩

/-- A definition is kept, but for its name. -/
theorem retargetViewDdl_eq (ddl qualified : Text) :
    retargetViewDdl ddl qualified = ddl ∨
      ∃ head name behind, ddl = head ++ name ++ behind ∧ retargetViewDdl ddl qualified = head ++ qualified ++ behind := by
  unfold retargetViewDdl
  cases hhead : viewHead ddl with
  | none => exact .inl rfl
  | some found =>
    obtain ⟨name, behind⟩ := found
    right
    unfold viewHead at hhead
    dsimp only at hhead
    split_ifs at hhead
    obtain ⟨hname, word, rfl⟩ := findView_suffix hhead
    obtain ⟨head, rfl⟩ := (hname.trans (List.drop_suffix _ _)).trans (List.dropWhile_suffix _)
    refine ⟨head, word, behind, (List.append_assoc head word behind).symm, ?_⟩
    dsimp only
    rw [List.length_append, Nat.add_sub_cancel, List.take_left]

/-! ## Nothing is left out -/

def Line.createdTable : Line → Option TableDef
  | createTable t => some t
  | _ => none

def Line.createdView : Line → Option ViewDef
  | createView v => some v
  | _ => none

/-- The tables whose creation a script states, and the views. -/
def created (lines : List Line) : List TableDef := lines.filterMap Line.createdTable

def createdViewsOf (lines : List Line) : List ViewDef := lines.filterMap Line.createdView

/-- Elements of a script that create nothing. -/
def Others (lines : List Line) : Prop := ∀ l ∈ lines, l.createdTable = none ∧ l.createdView = none

namespace Others

theorem nil : Others [] := nofun

theorem issue (i : ScriptIssue) : Others [.issue i] := List.forall_mem_singleton.mpr ⟨rfl, rfl⟩

theorem statement (text : Text) : Others [.statement text] := List.forall_mem_singleton.mpr ⟨rfl, rfl⟩

theorem append {a b : List Line} (ha : Others a) (hb : Others b) : Others (a ++ b) :=
  List.forall_mem_append.mpr ⟨ha, hb⟩

theorem flatMap {α : Type} {items : List α} {f : α → List Line} (h : ∀ x, Others (f x)) : Others (items.flatMap f) := by
  intro l hl
  obtain ⟨x, -, hx⟩ := List.mem_flatMap.mp hl
  exact h x l hx

theorem map {α : Type} {items : List α} {f : α → Line} (h : ∀ x, Others [f x]) : Others (items.map f) := by
  intro l hl
  obtain ⟨x, -, rfl⟩ := List.mem_map.mp hl
  exact h x (f x) (List.mem_singleton_self _)

theorem filterMap {α : Type} {items : List α} {f : α → Option Line} (h : ∀ x l, f x = some l → Others [l]) :
    Others (items.filterMap f) := by
  intro l hl
  obtain ⟨x, -, hx⟩ := List.mem_filterMap.mp hl
  exact h x l hx l (List.mem_singleton_self l)

theorem ite {c : Prop} [Decidable c] {a b : List Line} (ha : Others a) (hb : Others b) :
    Others (if c then a else b) := by
  split
  · exact ha
  · exact hb

end Others

variable (e : Text)

theorem others_dropConstraint (table : Text) (kind : ConstraintKind) (name : Option Text) (label : Text) :
    Others [dropConstraint e table kind name label] := by
  unfold dropConstraint
  split
  · exact .issue _
  · split
    · exact .statement _
    · split
      · exact .issue _
      · exact .issue _
      · exact .statement _

theorem others_addOrFlag (table body : Text) (name : Option Text) : Others [addOrFlag e table body name] := by
  unfold addOrFlag
  split_ifs
  · exact .issue _
  · exact .statement _

theorem others_addColumn (table : Text) (col : ColumnDef) : Others [addColumn e table col] := by
  unfold addColumn
  split
  · exact .issue _
  · exact .statement _

theorem others_alterColumn (noted : Bool) (table : Text) (cc : ColumnChange) : Others (alterColumn e noted table cc) := by
  unfold alterColumn
  dsimp only
  refine .ite (.issue _) (.ite (.statement _) (.ite ?_ (.ite ?_ ?_)))
  · exact .append (.ite .nil (.issue _)) (.statement _)
  · exact .append (.ite (.statement _) .nil) (.ite (.issue _) .nil)
  · exact .append (.append (.ite (.statement _) .nil) (.ite (.statement _) .nil)) (.ite (.statement _) .nil)

theorem others_alterColumns (table : Text) (noted : Bool) (changed : List ColumnChange) :
    Others (alterColumns e table noted changed) := by
  induction changed generalizing noted with
  | nil => exact .nil
  | cons cc changed ih => exact .append (others_alterColumn e noted table cc) (ih true)

theorem others_columnLines (k : Text → Text) (noted : Bool) (changes : List TableChange) :
    Others (columnLines e k noted changes) := by
  induction changes generalizing noted with
  | nil => exact .nil
  | cons ch changes ih =>
    refine .append (.append (.append (.append ?_ ?_) ?_) ?_) (ih _)
    · exact .map fun col ↦ others_addColumn e ch.name col
    · exact others_alterColumns e ch.name noted ch.changed
    · exact .map fun col ↦ .statement _
    · refine .filterMap fun r l hl ↦ ?_
      obtain ⟨a, -, rfl⟩ := Option.map_eq_some_iff.mp hl
      exact .issue _

theorem others_header (diff : SchemaDiff) : Others (header e diff) := by
  refine .append (.append (.map fun nc ↦ ?_) (.map fun s ↦ .issue _)) (.ite (.issue _) .nil)
  exact List.forall_mem_singleton.mpr ⟨rfl, rfl⟩

theorem others_dropLines (k : Text → Text) (diff : SchemaDiff) : Others (dropLines e k diff) := by
  refine .append (.append (.append ?_ ?_) ?_) ?_
  · exact .map fun n ↦ .statement _
  · exact .flatMap fun ch ↦ .map fun fk ↦ others_dropConstraint e _ _ _ _
  · refine .flatMap fun ch ↦ .append (.append (.append ?_ ?_) ?_) ?_
    · exact .map fun x ↦ others_dropConstraint e _ _ _ _
    · exact .map fun u ↦ others_dropConstraint e _ _ _ _
    · exact .map fun ix ↦ .statement _
    · exact .map fun p ↦ others_dropConstraint e _ _ _ _
  · exact .map fun t ↦ .issue _

theorem others_cycleNote (k : Text → Text) (tables : List TableDef) : Others (cycleNote e k tables) :=
  .ite (.issue _) .nil

theorem others_changeLines (k : Text → Text) (diff : SchemaDiff) : Others (changeLines e k diff) := by
  refine .append (.append (.append (.append ?_ ?_) ?_) ?_) ?_
  · exact others_columnLines e k false diff.changedTables
  · refine .flatMap fun ch ↦ .append (.append (.append ?_ ?_) ?_) ?_
    · exact .flatMap fun pk ↦ .flatMap fun p ↦ .ite .nil (others_addOrFlag e _ _ _)
    · exact .map fun u ↦ others_addOrFlag e _ _ _
    · exact .map fun x ↦ others_addOrFlag e _ _ _
    · exact .map fun ix ↦ .statement _
  · exact .flatMap fun t ↦ .map fun ix ↦ .statement _
  · exact .ite .nil (.flatMap fun t ↦ .map fun fk ↦ .statement _)
  · exact .flatMap fun ch ↦ .map fun fk ↦ others_addOrFlag e _ _ _

variable {e}

theorem created_append (a b : List Line) : created (a ++ b) = created a ++ created b := List.filterMap_append

theorem createdViewsOf_append (a b : List Line) : createdViewsOf (a ++ b) = createdViewsOf a ++ createdViewsOf b :=
  List.filterMap_append

theorem Others.created {lines : List Line} (h : Others lines) :
    created lines = [] ∧ createdViewsOf lines = [] :=
  ⟨List.filterMap_eq_nil_iff.mpr fun l hl ↦ (h l hl).1, List.filterMap_eq_nil_iff.mpr fun l hl ↦ (h l hl).2⟩

theorem created_tables (tables : List TableDef) :
    created (tables.map .createTable) = tables ∧ createdViewsOf (tables.map .createTable) = [] := by
  unfold created createdViewsOf
  rw [List.filterMap_map, List.filterMap_map]
  exact ⟨List.filterMap_some, List.filterMap_eq_nil_iff.mpr fun _ _ ↦ rfl⟩

theorem created_views (views : List ViewDef) :
    created (views.map .createView) = [] ∧ createdViewsOf (views.map .createView) = views := by
  unfold created createdViewsOf
  rw [List.filterMap_map, List.filterMap_map]
  exact ⟨List.filterMap_eq_nil_iff.mpr fun _ _ ↦ rfl, List.filterMap_some⟩

theorem created_generateMigration (k : Text → Text) (diff : SchemaDiff)
    (hsource : engineFamily diff.sourceEngine ≠ "mongodb".toList)
    (htarget : engineFamily diff.targetEngine ≠ "mongodb".toList) :
    created (generateMigration k diff) = createdTables k diff.addedTables ∧
      createdViewsOf (generateMigration k diff) = createdViews k (newViews diff) := by
  have hnone : [diff.sourceEngine, diff.targetEngine].find? (fun side ↦ engineFamily side = "mongodb".toList) = none := by
    refine List.find?_eq_none.mpr fun side hside ↦ ?_
    rw [decide_eq_true_iff]
    rcases List.mem_cons.mp hside with rfl | hside
    · exact hsource
    · rw [List.mem_singleton.mp hside]
      exact htarget
  obtain ⟨hheader, hheader'⟩ := (others_header diff.targetEngine diff).created
  obtain ⟨hdrop, hdrop'⟩ := (others_dropLines diff.targetEngine k diff).created
  obtain ⟨hcycle, hcycle'⟩ := (others_cycleNote diff.targetEngine k diff.addedTables).created
  obtain ⟨hchange, hchange'⟩ := (others_changeLines diff.targetEngine k diff).created
  obtain ⟨htables, htables'⟩ := created_tables (createdTables k diff.addedTables)
  obtain ⟨hviews, hviews'⟩ := created_views (createdViews k (newViews diff))
  unfold generateMigration
  dsimp only
  rw [hnone]
  dsimp only
  simp only [created_append, createdViewsOf_append, hheader, hheader', hdrop, hdrop', hcycle, hcycle', hchange,
    hchange', htables, htables', hviews, hviews', List.nil_append, List.append_nil, and_self]

/-! ## Main result -/

/-- The tables without a match, and the views. -/
def sourceOnlyTables (k : Text → Text) (source target : SchemaSnapshot) : List TableDef :=
  source.tables.filter fun t ↦ ∀ u ∈ target.tables, k u.name ≠ k t.name

def sourceOnlyViews (k : Text → Text) (source target : SchemaSnapshot) : List ViewDef :=
  source.views.filter fun v ↦ ∀ w ∈ target.views, k w.name ≠ k v.name

structure CreatesAll (k : Text → Text) (source target : SchemaSnapshot) (lines : List Line) : Prop where
  tables : (created lines).Perm (sourceOnlyTables k source target)
  references : ∀ t u, References k (sourceOnlyTables k source target) t u →
    ¬ OnOrBehindCycle (References k (sourceOnlyTables k source target)) u → Precedes (created lines) u t
  columns : ∀ t, ∃ more : List Text, (Line.createTable t).text target.engine =
    "CREATE TABLE ".toList ++ qt target.engine t.name ++ " (
".toList ++
      ",
".toList.intercalate ((t.columns.map (columnClause target.engine) ++ more).map fun d ↦ "  ".toList ++ d) ++
      "
);".toList
  views : Category.views ∉ source.missing.map Prod.fst → Category.views ∉ target.missing.map Prod.fst →
    ∀ v ∈ sourceOnlyViews k source target, (createdViewsOf lines).filter (fun w ↦ k w.name = k v.name) = [v]
  reads : ∀ v w, Reads k (createdViewsOf lines) v w → ¬ OnOrBehindCycle (Reads k (createdViewsOf lines)) w →
    Precedes (createdViewsOf lines) w v
  bodies : ∀ v, (Line.createView v).text target.engine = withoutSemicolon (jsTrim v.ddl) ++ [';'] ∨
    ∃ head name behind, withoutSemicolon (jsTrim v.ddl) = head ++ name ++ behind ∧
      (Line.createView v).text target.engine = head ++ qt target.engine v.name ++ behind ++ [';']

theorem filter_name {α κ : Type} [DecidableEq κ] {f : α → κ} {items : List α} (h : (items.map f).Nodup) {a : α}
    (ha : a ∈ items) : items.filter (fun b ↦ f b = f a) = [a] := by
  have hnodup : (items.filter fun b ↦ f b = f a).Nodup := (List.Nodup.of_map f h).filter _
  refine List.perm_singleton.mp ((List.perm_ext_iff_of_nodup hnodup (List.nodup_singleton a)).mpr fun b ↦ ?_)
  rw [List.mem_filter, decide_eq_true_iff, List.mem_singleton]
  constructor
  · exact fun hb ↦ List.inj_on_of_nodup_map h hb.1 ha hb.2
  · rintro rfl
    exact ⟨ha, rfl⟩

theorem tableDefs_columns (t : TableDef) : ∃ more, tableDefs e t = t.columns.map (columnClause e) ++ more := by
  unfold tableDefs
  rw [List.append_assoc, List.append_assoc, List.append_assoc]
  exact ⟨_, rfl⟩

/-- A table of one column. -/
def oneColumn (name : String) (references : List String) : TableDef where
  name := name.toList
  columns := [⟨"id".toList, "INTEGER".toList, true, none⟩]
  primaryKey := none
  uniques := []
  indexes := []
  foreignKeys := references.map fun r ↦ ⟨none, ["id".toList], r.toList, ["id".toList]⟩
  checks := []

def snapshot (engine : String) (tables : List TableDef) (views : List ViewDef) : SchemaSnapshot :=
  ⟨engine.toList, tables, views, [], []⟩

def viewOf (name ddl : String) : ViewDef := ⟨name.toList, ddl.toList⟩

end Squaero.Front.Schemas
