import Mathlib.Data.List.Nodup
import Mathlib.Data.List.Pairwise
import Mathlib.Data.List.Perm.Basic
import Squaero.Front.QueryBuilder
import Squaero.Lib.Traversal

/-!
# Altering a table by form

`buildAlterTable` of `frontend/src/utils/tableDesign.ts`: the statements that lead from a table to its edited definition,
and what they do to the columns of the table.
-/

namespace Squaero.Front.TableDesign

open Squaero.Lib

/-- A column's state as loaded from the existing table. -/
structure OriginalColumn where
  name : Text
  type : Text
  nullable : Bool
  defaultValue : Text
  deriving DecidableEq

structure OriginalTable where
  name : Text
  columns : List OriginalColumn
  deriving DecidableEq

/-- A column of the form with its name before the edit, which a new one has not. -/
structure AlterColumn extends OriginalColumn where
  origName : Option Text
  deriving DecidableEq

structure AlterTableDef where
  name : Text
  columns : List AlterColumn
  container : Option Text

/-- The statements by what they are. -/
inductive Statement
  | addColumn (clause : OriginalColumn)
  | changeColumn (old : Text) (clause : OriginalColumn)
  | modifyColumn (clause : OriginalColumn)
  | renameColumn (old new : Text)
  | alterType (column type : Text)
  | alterNullable (column : Text) (nullable : Bool)
  | alterDefault (column defaultValue : Text)
  | dropColumn (column : Text)
  | renameTable (new : Text)
  deriving DecidableEq

def isMysql (e : Text) : Prop := e = "mysql".toList ∨ e = "mariadb".toList

def isSqlite (e : Text) : Prop := e = "sqlite".toList

def isInformix (e : Text) : Prop := e = "informix".toList

instance (e : Text) : Decidable (isMysql e) := inferInstanceAs (Decidable (_ ∨ _))

instance (e : Text) : Decidable (isSqlite e) := inferInstanceAs (Decidable (_ = _))

instance (e : Text) : Decidable (isInformix e) := inferInstanceAs (Decidable (_ = _))

/-! ## Texts of the statements -/

def quoteId (engine id : Text) : Text := if isInformix engine then id else quoteIdentifier id engine

def qualifyName (engine : Text) (container : Option Text) (name : Text) : Text :=
  match container with
  | none | some [] => quoteId engine name
  | some container => quoteId engine container ++ ['.'] ++ quoteId engine name

def clauseText (engine : Text) (clause : OriginalColumn) : Text :=
  quoteId engine clause.name ++ [' '] ++ clause.type ++ (if clause.nullable then [] else " NOT NULL".toList) ++
    if clause.defaultValue = [] then [] else " DEFAULT ".toList ++ clause.defaultValue

/-- A statement's text, for a table with the qualified name `qt`. -/
def Statement.text (e qt tableName : Text) : Statement → Text
  | .addColumn clause =>
    "ALTER TABLE ".toList ++ qt ++ (if isInformix e then " ADD ".toList else " ADD COLUMN ".toList) ++ clauseText e clause
  | .changeColumn old clause =>
    "ALTER TABLE ".toList ++ qt ++ " CHANGE COLUMN ".toList ++ quoteId e old ++ [' '] ++ clauseText e clause
  | .modifyColumn clause =>
    if isInformix e then "ALTER TABLE ".toList ++ qt ++ " MODIFY (".toList ++ clauseText e clause ++ [')']
    else "ALTER TABLE ".toList ++ qt ++ " MODIFY COLUMN ".toList ++ clauseText e clause
  | .renameColumn old new =>
    if isInformix e then
      "RENAME COLUMN ".toList ++ quoteId e tableName ++ ['.'] ++ quoteId e old ++ " TO ".toList ++ quoteId e new
    else "ALTER TABLE ".toList ++ qt ++ " RENAME COLUMN ".toList ++ quoteId e old ++ " TO ".toList ++ quoteId e new
  | .alterType column type =>
    "ALTER TABLE ".toList ++ qt ++ " ALTER COLUMN ".toList ++ quoteId e column ++ " TYPE ".toList ++ type
  | .alterNullable column nullable =>
    "ALTER TABLE ".toList ++ qt ++ " ALTER COLUMN ".toList ++ quoteId e column ++
      if nullable then " DROP NOT NULL".toList else " SET NOT NULL".toList
  | .alterDefault column defaultValue =>
    "ALTER TABLE ".toList ++ qt ++ " ALTER COLUMN ".toList ++ quoteId e column ++
      if defaultValue = [] then " DROP DEFAULT".toList else " SET DEFAULT ".toList ++ defaultValue
  | .dropColumn column =>
    "ALTER TABLE ".toList ++ qt ++ (if isInformix e then " DROP ".toList else " DROP COLUMN ".toList) ++ quoteId e column
  | .renameTable new =>
    if isInformix e then "RENAME TABLE ".toList ++ quoteId e tableName ++ " TO ".toList ++ quoteId e new
    else "ALTER TABLE ".toList ++ qt ++ " RENAME TO ".toList ++ quoteId e new

/-! ## The statements of an edit -/

/-- A column's definition clause. -/
def alterColumnClause (col : AlterColumn) : OriginalColumn where
  name := jsTrim col.name
  type := jsTrim col.type
  nullable := col.nullable
  defaultValue := jsTrim col.defaultValue

/-- The column with its fields trimmed. -/
def trimColumn (c : AlterColumn) : AlterColumn :=
  { c with name := jsTrim c.name, type := jsTrim c.type, defaultValue := jsTrim c.defaultValue }

/-- The name that the column had, where it had one. -/
def AlterColumn.kept (c : AlterColumn) : Option Text := c.origName.filter (· ≠ [])

def columnError (c : AlterColumn) : Option Text :=
  if c.name = [] then some "Toda columna necesita un nombre.".toList
  else if c.type = [] then some ("La columna \"".toList ++ c.name ++ "\" necesita un tipo.".toList)
  else none

/-- `columnChange` -/
def columnChange (e : Text) (o : OriginalColumn) (c : AlterColumn) (renamed attrsChanged : Bool) :
    Except Text (List Statement) :=
  if isMysql e then
    if renamed then .ok [.changeColumn o.name (alterColumnClause c)] else .ok [.modifyColumn (alterColumnClause c)]
  else if isSqlite e then
    if attrsChanged then
      .error ("SQLite no puede modificar el tipo, nulabilidad o default de la columna \"".toList ++ o.name ++
        "\"; requiere recrear la tabla.".toList)
    else .ok [.renameColumn o.name c.name]
  else if isInformix e then
    .ok ((if renamed then [.renameColumn o.name c.name] else []) ++
      if attrsChanged then [.modifyColumn (alterColumnClause c)] else [])
  else
    .ok ((if renamed then [.renameColumn o.name c.name] else []) ++
      (if o.type ≠ c.type then [.alterType c.name c.type] else []) ++
      (if o.nullable ≠ c.nullable then [.alterNullable c.name c.nullable] else []) ++
      if o.defaultValue ≠ c.defaultValue then [.alterDefault c.name c.defaultValue] else [])

/-- The statements for one column of the form. -/
def columnStatements (e : Text) (original : OriginalTable) (c : AlterColumn) : Except Text (List Statement) :=
  match c.kept with
  | none => .ok [.addColumn (alterColumnClause c)]
  | some origName =>
    -- of two columns with one name the map has the later one
    match original.columns.reverse.find? (·.name = origName) with
    | none => .error ("La columna original \"".toList ++ origName ++ "\" ya no existe.".toList)
    | some o =>
      let renamed := c.name ≠ o.name
      let attrsChanged := c.type ≠ o.type ∨ c.nullable ≠ o.nullable ∨ c.defaultValue ≠ o.defaultValue
      if ¬ renamed ∧ ¬ attrsChanged then .ok [] else columnChange e o c renamed attrsChanged

def dropStatements (original : OriginalTable) (cols : List AlterColumn) : List Statement :=
  (original.columns.filter fun o ↦ o.name ∉ cols.filterMap AlterColumn.kept).map fun o ↦ .dropColumn o.name

/-- `buildAlterTable` -/
def buildAlterTable (toLowerCase : Text → Text) (engine : Text) (original : OriginalTable) (edited : AlterTableDef) :
    Except Text (List Statement) :=
  let e := jsLower engine
  let cols := edited.columns.map trimColumn
  let newName := jsTrim edited.name
  if cols = [] then .error "La tabla debe conservar al menos una columna.".toList
  else
    match cols.findSome? columnError with
    | some error => .error error
    | none =>
      if ¬ (cols.map fun c ↦ toLowerCase c.name).Nodup then .error "Hay nombres de columna duplicados.".toList
      else if newName = [] then .error "El nombre de la tabla es obligatorio.".toList
      else
        (cols.mapM (columnStatements e original)).map fun statements ↦
          statements.flatten ++ dropStatements original cols ++
            if newName ≠ original.name then [.renameTable newName] else []

/-- The statements as texts. -/
def alterScript (toLowerCase : Text → Text) (engine : Text) (original : OriginalTable) (edited : AlterTableDef) :
    Except Text (List Text) :=
  let e := jsLower engine
  (buildAlterTable toLowerCase engine original edited).map fun statements ↦
    statements.map (Statement.text e (qualifyName e edited.container original.name) original.name)

/-! ## What the statements do -/

section

variable (toLowerCase : Text → Text)

/-- The column has the name, in whatever letters. -/
def isNamed (name : Text) (c : OriginalColumn) : Bool := toLowerCase c.name = toLowerCase name

/-- Fails where the column is missing. -/
def updateColumn (name : Text) (f : OriginalColumn → OriginalColumn) (table : OriginalTable) : Option OriginalTable :=
  if table.columns.any (isNamed toLowerCase name) then
    some { table with columns := table.columns.map fun c ↦ if isNamed toLowerCase name c then f c else c }
  else none

/-- Another column than the old one has the new name. -/
def isTaken (old new : Text) (table : OriginalTable) : Bool :=
  table.columns.any fun c ↦ isNamed toLowerCase new c && !isNamed toLowerCase old c

def Statement.run (table : OriginalTable) : Statement → Option OriginalTable
  | .addColumn clause =>
    if table.columns.any (isNamed toLowerCase clause.name) then none
    else some { table with columns := table.columns ++ [clause] }
  | .changeColumn old clause =>
    if isTaken toLowerCase old clause.name table then none else updateColumn toLowerCase old (fun _ ↦ clause) table
  | .modifyColumn clause => updateColumn toLowerCase clause.name (fun c ↦ { clause with name := c.name }) table
  | .renameColumn old new =>
    if isTaken toLowerCase old new table then none
    else updateColumn toLowerCase old (fun c ↦ { c with name := new }) table
  | .alterType column type => updateColumn toLowerCase column (fun c ↦ { c with type := type }) table
  | .alterNullable column nullable => updateColumn toLowerCase column (fun c ↦ { c with nullable := nullable }) table
  | .alterDefault column defaultValue =>
    updateColumn toLowerCase column (fun c ↦ { c with defaultValue := defaultValue }) table
  | .dropColumn column =>
    if table.columns.any (isNamed toLowerCase column) then
      some { table with columns := table.columns.filter fun c ↦ !isNamed toLowerCase column c }
    else none
  | .renameTable new => some { table with name := new }

/-- Running the statements in order: none where one of them fails. -/
def runAll (table : OriginalTable) (statements : List Statement) : Option OriginalTable :=
  statements.foldlM (Statement.run toLowerCase) table

end

/-! ## One column -/

theorem alterColumnClause_trimColumn (c : AlterColumn) :
    alterColumnClause (trimColumn c) = (trimColumn c).toOriginalColumn := by
  unfold alterColumnClause trimColumn
  dsimp only
  rw [jsTrim_jsTrim, jsTrim_jsTrim, jsTrim_jsTrim]

section

variable {toLowerCase : Text → Text}

/-- No two columns have one name, whatever its letters. -/
def Distinct (toLowerCase : Text → Text) (columns : List OriginalColumn) : Prop :=
  (columns.map fun c ↦ toLowerCase c.name).Nodup

theorem isNamed_iff {name : Text} {c : OriginalColumn} :
    isNamed toLowerCase name c = true ↔ toLowerCase c.name = toLowerCase name := decide_eq_true_iff

theorem distinct_place_iff {before after : List OriginalColumn} {x : OriginalColumn} :
    Distinct toLowerCase (before ++ x :: after) ↔
      (∀ c ∈ before ++ after, toLowerCase c.name ≠ toLowerCase x.name) ∧ Distinct toLowerCase (before ++ after) := by
  have hperm : (before ++ x :: after).Perm (x :: (before ++ after)) := List.perm_middle
  unfold Distinct
  rw [(hperm.map _).nodup_iff, List.map_cons, List.nodup_cons]
  refine and_congr_left fun _ ↦ ?_
  simp only [List.mem_map, not_exists, not_and]

section Place

variable {before after : List OriginalColumn} {x : OriginalColumn} (h : Distinct toLowerCase (before ++ x :: after))

include h

/-- The other columns have other names. -/
theorem Distinct.ne_of_mem {c : OriginalColumn} (hc : c ∈ before ++ after) : toLowerCase c.name ≠ toLowerCase x.name :=
  (distinct_place_iff.mp h).1 c hc

theorem Distinct.replace {y : OriginalColumn}
    (hfree : ∀ c ∈ before ++ after, toLowerCase c.name ≠ toLowerCase y.name) :
    Distinct toLowerCase (before ++ y :: after) :=
  distinct_place_iff.mpr ⟨hfree, (distinct_place_iff.mp h).2⟩

theorem updateColumn_place {name : Text} {tableName : Text} (hname : toLowerCase x.name = toLowerCase name)
    (f : OriginalColumn → OriginalColumn) :
    updateColumn toLowerCase name f ⟨tableName, before ++ x :: after⟩ = some ⟨tableName, before ++ f x :: after⟩ := by
  have hx : isNamed toLowerCase name x = true := isNamed_iff.mpr hname
  have hothers : ∀ c ∈ before ++ after, isNamed toLowerCase name c = false := fun c hc ↦
    decide_eq_false fun heq ↦ h.ne_of_mem hc (heq.trans hname.symm)
  have hsame {cs : List OriginalColumn} (hcs : ∀ c ∈ cs, isNamed toLowerCase name c = false) :
      cs.map (fun c ↦ if isNamed toLowerCase name c then f c else c) = cs := by
    conv_rhs => rw [← List.map_id cs]
    exact List.map_congr_left fun c hc ↦ by rw [hcs c hc]; rfl
  unfold updateColumn
  rw [if_pos (List.any_eq_true.mpr ⟨x, List.mem_append_right _ (.head _), hx⟩)]
  dsimp only
  rw [List.map_append, List.map_cons, hx, if_pos rfl, hsame fun c hc ↦ hothers c (List.mem_append_left _ hc),
    hsame fun c hc ↦ hothers c (List.mem_append_right _ hc)]

theorem isTaken_place {new : Text} {tableName : Text} :
    isTaken toLowerCase x.name new ⟨tableName, before ++ x :: after⟩ = (before ++ after).any (isNamed toLowerCase new) := by
  have hx : isNamed toLowerCase x.name x = true := isNamed_iff.mpr rfl
  have hothers : ∀ c ∈ before ++ after, isNamed toLowerCase x.name c = false := fun c hc ↦
    decide_eq_false (h.ne_of_mem hc)
  have hany {cs : List OriginalColumn} (hcs : ∀ c ∈ cs, isNamed toLowerCase x.name c = false) :
      cs.any (fun c ↦ isNamed toLowerCase new c && !isNamed toLowerCase x.name c) = cs.any (isNamed toLowerCase new) := by
    rw [Bool.eq_iff_iff, List.any_eq_true, List.any_eq_true]
    refine exists_congr fun c ↦ and_congr_right fun hc ↦ ?_
    rw [hcs c hc, Bool.not_false, Bool.and_true]
  unfold isTaken
  dsimp only
  rw [List.any_append, List.any_cons, hx, Bool.not_true, Bool.and_false, Bool.false_or, List.any_append,
    hany fun c hc ↦ hothers c (List.mem_append_left _ hc), hany fun c hc ↦ hothers c (List.mem_append_right _ hc)]

end Place

theorem runAll_append (table : OriginalTable) (statements more : List Statement) :
    runAll toLowerCase table (statements ++ more) =
      (runAll toLowerCase table statements).bind fun table ↦ runAll toLowerCase table more := List.foldlM_append

theorem runAll_nil (table : OriginalTable) : runAll toLowerCase table [] = some table := rfl

theorem runAll_singleton (table : OriginalTable) (statement : Statement) :
    runAll toLowerCase table [statement] = statement.run toLowerCase table := by
  rw [runAll, List.foldlM_cons]
  exact bind_pure _

section Change

variable {before after : List OriginalColumn} {x : OriginalColumn} (h : Distinct toLowerCase (before ++ x :: after))
  (tableName : Text)

include h

theorem run_renameColumn (new : Text) :
    Statement.run toLowerCase ⟨tableName, before ++ x :: after⟩ (.renameColumn x.name new) =
      if (before ++ after).any (isNamed toLowerCase new) then none
      else some ⟨tableName, before ++ { x with name := new } :: after⟩ := by
  rw [Statement.run, isTaken_place h, updateColumn_place h rfl]

/-- An attribute is set where it changes. -/
theorem runAll_alter {p : Prop} [Decidable p] (statement : Statement) (f : OriginalColumn → OriginalColumn)
    (hrun : ∀ table, Statement.run toLowerCase table statement = updateColumn toLowerCase x.name f table)
    (hsame : ¬ p → f x = x) :
    runAll toLowerCase ⟨tableName, before ++ x :: after⟩ (if p then [statement] else []) =
      some ⟨tableName, before ++ f x :: after⟩ := by
  split_ifs with hp
  · rw [runAll_singleton, hrun, updateColumn_place h rfl]
  · rw [runAll_nil, hsame hp]

/-- What a column's statements lead to: none where another column has the new name. -/
def Replaces (toLowerCase : Text → Text) (tableName : Text) (before : List OriginalColumn) (x : OriginalColumn)
    (after : List OriginalColumn) (y : OriginalColumn) (statements : List Statement) : Prop :=
  runAll toLowerCase ⟨tableName, before ++ x :: after⟩ statements =
    if (before ++ after).any (isNamed toLowerCase y.name) then none else some ⟨tableName, before ++ y :: after⟩

/-- No other column has the name of the one at the place. -/
theorem any_place : (before ++ after).any (isNamed toLowerCase x.name) = false :=
  List.any_eq_false.mpr fun _ hc hnamed ↦ h.ne_of_mem hc (isNamed_iff.mp hnamed)

theorem replaces_rename {new : Text} {p : Prop} [Decidable p] (hp : ¬ p → new = x.name) :
    Replaces toLowerCase tableName before x after { x with name := new }
      (if p then [.renameColumn x.name new] else []) := by
  unfold Replaces
  split_ifs with hnew hany hany
  · rw [runAll_singleton, run_renameColumn h, if_pos hany]
  · rw [runAll_singleton, run_renameColumn h, if_neg hany]
  · rw [hp hnew, any_place h] at hany
    cases hany
  · rw [runAll_nil, hp hnew]

/-- More statements for a column that has its new name. -/
theorem Replaces.append {y z : OriginalColumn} {statements more : List Statement}
    (hfirst : Replaces toLowerCase tableName before x after y statements) (hname : z.name = y.name)
    (hmore : Distinct toLowerCase (before ++ y :: after) →
      runAll toLowerCase ⟨tableName, before ++ y :: after⟩ more = some ⟨tableName, before ++ z :: after⟩) :
    Replaces toLowerCase tableName before x after z (statements ++ more) := by
  unfold Replaces at *
  rw [runAll_append, hfirst, hname]
  split_ifs with hany
  · rfl
  · rw [Option.bind_some]
    refine hmore (h.replace fun c hc heq ↦ hany ?_)
    exact List.any_eq_true.mpr ⟨c, hc, isNamed_iff.mpr heq⟩

theorem run_modifyColumn {clause : OriginalColumn} (hname : clause.name = x.name) :
    Statement.run toLowerCase ⟨tableName, before ++ x :: after⟩ (.modifyColumn clause) =
      some ⟨tableName, before ++ clause :: after⟩ := by
  have hclause : ({ clause with name := x.name } : OriginalColumn) = clause := by rw [← hname]
  rw [Statement.run, updateColumn_place h (congrArg toLowerCase hname.symm), hclause]

omit h in
/-- The column with its new name, before its other fields change. -/
theorem eq_of_unchanged {c : AlterColumn} (hchanged : ¬ (c.type ≠ x.type ∨ c.nullable ≠ x.nullable ∨
    c.defaultValue ≠ x.defaultValue)) : ({ x with name := c.name } : OriginalColumn) = c.toOriginalColumn := by
  push Not at hchanged
  obtain ⟨htype, hnullable, hdefault⟩ := hchanged
  rw [← htype, ← hnullable, ← hdefault]

theorem replaces_mysql {c : AlterColumn} (htrim : alterColumnClause c = c.toOriginalColumn) :
    Replaces toLowerCase tableName before x after c.toOriginalColumn
      (if c.name ≠ x.name then [.changeColumn x.name (alterColumnClause c)]
      else [.modifyColumn (alterColumnClause c)]) := by
  unfold Replaces
  rw [htrim]
  split_ifs with hname hany hany
  · rw [runAll_singleton, Statement.run, isTaken_place h, if_pos hany]
  · rw [runAll_singleton, Statement.run, isTaken_place h, if_neg hany, updateColumn_place h rfl]
  · rw [not_not] at hname
    rw [hname, any_place h] at hany
    cases hany
  · rw [runAll_singleton, run_modifyColumn h tableName (not_not.mp hname)]

theorem replaces_informix {c : AlterColumn} (htrim : alterColumnClause c = c.toOriginalColumn) :
    Replaces toLowerCase tableName before x after c.toOriginalColumn
      ((if c.name ≠ x.name then [.renameColumn x.name c.name] else []) ++
        if c.type ≠ x.type ∨ c.nullable ≠ x.nullable ∨ c.defaultValue ≠ x.defaultValue then
          [.modifyColumn (alterColumnClause c)] else []) := by
  refine (replaces_rename h tableName not_not.mp).append h tableName rfl fun hrenamed ↦ ?_
  rw [htrim]
  split_ifs with hchanged
  · rw [runAll_singleton]
    exact run_modifyColumn hrenamed tableName rfl
  · rw [runAll_nil, eq_of_unchanged hchanged]

theorem replaces_generic (c : AlterColumn) :
    Replaces toLowerCase tableName before x after c.toOriginalColumn
      ((if c.name ≠ x.name then [.renameColumn x.name c.name] else []) ++
        (if x.type ≠ c.type then [.alterType c.name c.type] else []) ++
        (if x.nullable ≠ c.nullable then [.alterNullable c.name c.nullable] else []) ++
        if x.defaultValue ≠ c.defaultValue then [.alterDefault c.name c.defaultValue] else []) := by
  have hname : Replaces toLowerCase tableName before x after { x with name := c.name }
      (if c.name ≠ x.name then [.renameColumn x.name c.name] else []) := replaces_rename h tableName not_not.mp
  have htype := hname.append (z := { x with name := c.name, type := c.type }) h tableName rfl fun hcurrent ↦
    runAll_alter hcurrent tableName (p := x.type ≠ c.type) (.alterType c.name c.type) (fun y ↦ { y with type := c.type })
      (fun _ ↦ rfl) fun hsame ↦ by rw [← not_not.mp hsame]
  have hnullable := htype.append (z := { x with name := c.name, type := c.type, nullable := c.nullable }) h tableName rfl
    fun hcurrent ↦ runAll_alter hcurrent tableName (p := x.nullable ≠ c.nullable) (.alterNullable c.name c.nullable)
      (fun y ↦ { y with nullable := c.nullable }) (fun _ ↦ rfl) fun hsame ↦ by rw [← not_not.mp hsame]
  exact hnullable.append (z := c.toOriginalColumn) h tableName rfl fun hcurrent ↦
    runAll_alter hcurrent tableName (p := x.defaultValue ≠ c.defaultValue) (.alterDefault c.name c.defaultValue)
      (fun y ↦ { y with defaultValue := c.defaultValue }) (fun _ ↦ rfl) fun hsame ↦ by rw [← not_not.mp hsame]

theorem replaces_columnChange {e : Text} {c : AlterColumn} {statements : List Statement}
    (htrim : alterColumnClause c = c.toOriginalColumn)
    (hok : columnChange e x c (c.name ≠ x.name)
      (c.type ≠ x.type ∨ c.nullable ≠ x.nullable ∨ c.defaultValue ≠ x.defaultValue) = .ok statements)
    (hchange : ¬ (¬ c.name ≠ x.name ∧
      ¬ (c.type ≠ x.type ∨ c.nullable ≠ x.nullable ∨ c.defaultValue ≠ x.defaultValue))) :
    Replaces toLowerCase tableName before x after c.toOriginalColumn statements := by
  unfold columnChange at hok
  simp only [decide_eq_true_eq] at hok
  by_cases hmysql : isMysql e
  · have hreplaces := replaces_mysql h tableName htrim
    rw [if_pos hmysql] at hok
    split_ifs at hok hreplaces
    · exact Except.ok.inj hok ▸ hreplaces
    · exact Except.ok.inj hok ▸ hreplaces
  rw [if_neg hmysql] at hok
  by_cases hsqlite : isSqlite e
  · rw [if_pos hsqlite] at hok
    split_ifs at hok with hchanged
    have hrename : Replaces toLowerCase tableName before x after { x with name := c.name }
        (if c.name ≠ x.name then [.renameColumn x.name c.name] else []) := replaces_rename h tableName not_not.mp
    rw [if_pos (by tauto), eq_of_unchanged hchanged] at hrename
    exact Except.ok.inj hok ▸ hrename
  rw [if_neg hsqlite] at hok
  by_cases hinformix : isInformix e
  · rw [if_pos hinformix] at hok
    exact Except.ok.inj hok ▸ replaces_informix h tableName htrim
  · rw [if_neg hinformix] at hok
    exact Except.ok.inj hok ▸ replaces_generic h tableName c

end Change

/-! ## The columns of the form in order -/

/-- What an original column is when the columns `done` of the form are done. -/
def replacement (done : List AlterColumn) (o : OriginalColumn) : OriginalColumn :=
  ((done.find? fun c ↦ c.kept = some o.name).map (·.toOriginalColumn)).getD o

/-- The table's columns when the columns `done` of the form are done. -/
def current (original : List OriginalColumn) (done : List AlterColumn) : List OriginalColumn :=
  original.map (replacement done) ++ (done.filter fun c ↦ c.kept = none).map (·.toOriginalColumn)

/-- Another column has the name of the form's next column. -/
def isBlocked (toLowerCase : Text → Text) (columns : List OriginalColumn) (c : AlterColumn) : Bool :=
  columns.any fun x ↦ isNamed toLowerCase c.name x && c.kept ≠ some x.name

theorem replacement_concat (done : List AlterColumn) (c : AlterColumn) (o : OriginalColumn) :
    replacement (done ++ [c]) o =
      if c.kept = some o.name ∧ ∀ d ∈ done, d.kept ≠ some o.name then c.toOriginalColumn else replacement done o := by
  unfold replacement
  rw [List.find?_append]
  cases hfind : done.find? fun c ↦ c.kept = some o.name with
  | some d =>
    have hd : d.kept = some o.name := by simpa using List.find?_some hfind
    rw [if_neg fun h ↦ h.2 d (List.mem_of_find?_eq_some hfind) hd]
    rfl
  | none =>
    have hnone : ∀ d ∈ done, d.kept ≠ some o.name := fun d hd ↦ by simpa using List.find?_eq_none.mp hfind d hd
    by_cases hkept : c.kept = some o.name
    · rw [if_pos ⟨hkept, hnone⟩]
      simp [hkept]
    · rw [if_neg fun h ↦ hkept h.1]
      simp [hkept]

theorem replacement_of_forall {done : List AlterColumn} {o : OriginalColumn} (h : ∀ d ∈ done, d.kept ≠ some o.name) :
    replacement done o = o := by
  have hnone : done.find? (fun c ↦ c.kept = some o.name) = none :=
    List.find?_eq_none.mpr fun d hd ↦ by simpa using h d hd
  unfold replacement
  rw [hnone]
  rfl

theorem current_concat_of_new {original : List OriginalColumn} {done : List AlterColumn} {c : AlterColumn}
    (hnew : c.kept = none) : current original (done ++ [c]) = current original done ++ [c.toOriginalColumn] := by
  have hsame : original.map (replacement (done ++ [c])) = original.map (replacement done) :=
    List.map_congr_left fun o _ ↦ by
      rw [replacement_concat, if_neg fun h ↦ Option.some_ne_none _ (h.1.symm.trans hnew)]
  unfold current
  rw [hsame, List.filter_append, List.map_append, ← List.append_assoc]
  simp [hnew]

/-- A column of the form that has an original one is at its place. -/
theorem current_concat_of_kept {original : List OriginalColumn} (horiginal : Distinct toLowerCase original)
    {done : List AlterColumn} {c : AlterColumn} {o : OriginalColumn} (ho : o ∈ original) (hkept : c.kept = some o.name)
    (hdone : ∀ d ∈ done, d.kept ≠ some o.name) :
    ∃ before after, current original done = before ++ o :: after ∧
      current original (done ++ [c]) = before ++ c.toOriginalColumn :: after := by
  obtain ⟨first, last, rfl⟩ := List.append_of_mem ho
  have hsame {cs : List OriginalColumn} (hcs : ∀ x ∈ cs, x ∈ first ++ last) :
      cs.map (replacement (done ++ [c])) = cs.map (replacement done) := by
    refine List.map_congr_left fun x hx ↦ ?_
    rw [replacement_concat, if_neg]
    intro ⟨hx', _⟩
    have hname : x.name = o.name := (Option.some.inj (hkept.symm.trans hx')).symm
    exact horiginal.ne_of_mem (hcs x hx) (congrArg toLowerCase hname)
  refine ⟨first.map (replacement done),
    last.map (replacement done) ++ (done.filter fun c ↦ c.kept = none).map (·.toOriginalColumn), ?_, ?_⟩
  · unfold current
    rw [List.map_append, List.map_cons, replacement_of_forall hdone, List.append_assoc, List.cons_append]
  · unfold current
    rw [List.map_append, List.map_cons, replacement_concat, if_pos ⟨hkept, hdone⟩,
      hsame fun x hx ↦ List.mem_append_left _ hx, hsame fun x hx ↦ List.mem_append_right _ hx, List.filter_append,
      List.append_assoc, List.cons_append]
    simp [hkept]

/-- The column's own place does not count. -/
theorem isBlocked_place {before after : List OriginalColumn} {o : OriginalColumn} {c : AlterColumn}
    (h : Distinct toLowerCase (before ++ o :: after)) (hkept : c.kept = some o.name) :
    isBlocked toLowerCase (before ++ o :: after) c = (before ++ after).any (isNamed toLowerCase c.name) := by
  unfold isBlocked
  rw [Bool.eq_iff_iff, List.any_eq_true, List.any_eq_true]
  refine exists_congr fun x ↦ ?_
  rw [Bool.and_eq_true, decide_eq_true_eq, hkept, Ne, Option.some.injEq]
  constructor
  · intro ⟨hx, hnamed, hother⟩
    refine ⟨?_, hnamed⟩
    rcases List.mem_append.mp hx with hx | hx
    · exact List.mem_append_left _ hx
    · rcases List.mem_cons.mp hx with rfl | hx
      · exact absurd rfl hother
      · exact List.mem_append_right _ hx
  · intro ⟨hx, hnamed⟩
    refine ⟨?_, hnamed, fun heq ↦ h.ne_of_mem hx (congrArg toLowerCase heq.symm)⟩
    exact (List.mem_append.mp hx).elim (List.mem_append_left _) fun hx ↦ List.mem_append_right _ (.tail _ hx)

theorem runAll_columnStatements {e : Text} {original : OriginalTable} {c : AlterColumn} {statements : List Statement}
    (hok : columnStatements e original c = .ok statements) (htrim : alterColumnClause c = c.toOriginalColumn)
    (horiginal : Distinct toLowerCase original.columns) {done : List AlterColumn}
    (hdone : ∀ d ∈ done, ∀ name, d.kept = some name → c.kept ≠ some name)
    (hdistinct : Distinct toLowerCase (current original.columns done)) :
    runAll toLowerCase ⟨original.name, current original.columns done⟩ statements =
      if isBlocked toLowerCase (current original.columns done) c then none
      else some ⟨original.name, current original.columns (done ++ [c])⟩ := by
  unfold columnStatements at hok
  cases hkept : c.kept with
  | none =>
    rw [hkept] at hok
    have hblocked : isBlocked toLowerCase (current original.columns done) c =
        (current original.columns done).any (isNamed toLowerCase c.name) := by
      unfold isBlocked
      simp [hkept]
    rw [← Except.ok.inj hok, runAll_singleton, Statement.run, htrim, hblocked, current_concat_of_new hkept]
  | some origName =>
    rw [hkept] at hok
    dsimp only at hok
    cases hfind : original.columns.reverse.find? (·.name = origName) with
    | none =>
      rw [hfind] at hok
      cases hok
    | some o =>
      rw [hfind] at hok
      dsimp only at hok
      have ho : o ∈ original.columns := List.mem_reverse.mp (List.mem_of_find?_eq_some hfind)
      have hname : o.name = origName := by simpa using List.find?_some hfind
      have hkept' : c.kept = some o.name := hkept.trans (congrArg some hname.symm)
      obtain ⟨before, after, hcurrent, hnext⟩ := current_concat_of_kept horiginal ho hkept'
        fun d hd heq ↦ hdone d hd _ heq hkept'
      rw [hcurrent] at hdistinct ⊢
      have hreplaces : Replaces toLowerCase original.name before o after c.toOriginalColumn statements := by
        split_ifs at hok with hsame
        · have hsame' : c.toOriginalColumn = o := by
            rw [← eq_of_unchanged hsame.2, not_not.mp hsame.1]
          unfold Replaces
          rw [← Except.ok.inj hok, runAll_nil, hsame', any_place hdistinct]
          rfl
        · exact replaces_columnChange hdistinct original.name htrim hok hsame
      rw [isBlocked_place hdistinct hkept', hnext]
      exact hreplaces

/-- A column that is kept is one of the table's. -/
theorem exists_of_columnStatements {e : Text} {original : OriginalTable} {c : AlterColumn} {statements : List Statement}
    (hok : columnStatements e original c = .ok statements) {origName : Text} (hkept : c.kept = some origName) :
    ∃ o ∈ original.columns, o.name = origName := by
  unfold columnStatements at hok
  rw [hkept] at hok
  dsimp only at hok
  cases hfind : original.columns.reverse.find? (·.name = origName) with
  | none =>
    rw [hfind] at hok
    cases hok
  | some o =>
    exact ⟨o, List.mem_reverse.mp (List.mem_of_find?_eq_some hfind), by simpa using List.find?_some hfind⟩

/-- A column that is not blocked keeps the names apart. -/
theorem distinct_current_concat {e : Text} {original : OriginalTable} {c : AlterColumn} {statements : List Statement}
    (hok : columnStatements e original c = .ok statements) (horiginal : Distinct toLowerCase original.columns)
    {done : List AlterColumn} (hdone : ∀ d ∈ done, ∀ name, d.kept = some name → c.kept ≠ some name)
    (hdistinct : Distinct toLowerCase (current original.columns done))
    (hfree : isBlocked toLowerCase (current original.columns done) c = false) :
    Distinct toLowerCase (current original.columns (done ++ [c])) := by
  cases hkept : c.kept with
  | none =>
    rw [current_concat_of_new hkept]
    refine distinct_place_iff.mpr ⟨fun x hx hname ↦ ?_, by rwa [List.append_nil]⟩
    rw [List.append_nil] at hx
    have hx := List.any_eq_false.mp hfree x hx
    rw [Bool.and_eq_true, isNamed_iff, decide_eq_true_eq, hkept] at hx
    exact hx ⟨hname, nofun⟩
  | some origName =>
    obtain ⟨o, ho, hname⟩ := exists_of_columnStatements hok hkept
    have hkept' : c.kept = some o.name := hkept.trans (congrArg some hname.symm)
    obtain ⟨before, after, hcurrent, hnext⟩ := current_concat_of_kept horiginal ho hkept'
      fun d hd heq ↦ hdone d hd _ heq hkept'
    rw [hcurrent] at hdistinct hfree
    rw [isBlocked_place hdistinct hkept'] at hfree
    rw [hnext]
    exact hdistinct.replace fun x hx hname ↦ List.any_eq_false.mp hfree x hx (isNamed_iff.mpr hname)

/-- One of the columns `rest` of the form is blocked when those before it are done. -/
def isBlockedIn (toLowerCase : Text → Text) (original : List OriginalColumn) :
    List AlterColumn → List AlterColumn → Bool
  | _, [] => false
  | done, c :: rest =>
    isBlocked toLowerCase (current original done) c || isBlockedIn toLowerCase original (done ++ [c]) rest

theorem isBlockedIn_iff {original : List OriginalColumn} {done rest : List AlterColumn} :
    isBlockedIn toLowerCase original done rest = true ↔ ∃ before c after, rest = before ++ c :: after ∧
      isBlocked toLowerCase (current original (done ++ before)) c = true := by
  induction rest generalizing done with
  | nil =>
    refine iff_of_false nofun fun ⟨before, c, after, hnil, _⟩ ↦ ?_
    exact List.append_ne_nil_of_right_ne_nil _ (List.cons_ne_nil _ _) hnil.symm
  | cons c rest ih =>
    rw [isBlockedIn, Bool.or_eq_true, ih]
    constructor
    · rintro (hfirst | ⟨before, d, after, rfl, hblocked⟩)
      · exact ⟨[], c, rest, rfl, by rwa [List.append_nil]⟩
      · exact ⟨c :: before, d, after, rfl, by rwa [List.append_cons]⟩
    · rintro ⟨before, d, after, hrest, hblocked⟩
      cases before with
      | nil =>
        obtain ⟨rfl, rfl⟩ := List.cons.inj hrest
        exact .inl (by rwa [List.append_nil] at hblocked)
      | cons first before =>
        obtain ⟨rfl, rfl⟩ := List.cons.inj hrest
        exact .inr ⟨before, d, after, rfl, by rwa [List.append_cons] at hblocked⟩

theorem runAll_columns {e : Text} {original : OriginalTable} (horiginal : Distinct toLowerCase original.columns)
    {rest : List AlterColumn} {lists : List (List Statement)}
    (hok : rest.mapM (columnStatements e original) = .ok lists)
    (htrim : ∀ c ∈ rest, alterColumnClause c = c.toOriginalColumn) {done : List AlterColumn}
    (hkept : ((done ++ rest).filterMap AlterColumn.kept).Nodup)
    (hdistinct : Distinct toLowerCase (current original.columns done)) :
    runAll toLowerCase ⟨original.name, current original.columns done⟩ lists.flatten =
        (if isBlockedIn toLowerCase original.columns done rest then none
        else some ⟨original.name, current original.columns (done ++ rest)⟩) ∧
      (isBlockedIn toLowerCase original.columns done rest = false →
        Distinct toLowerCase (current original.columns (done ++ rest))) := by
  induction rest generalizing done lists with
  | nil =>
    rw [← Except.ok.inj hok, List.append_nil]
    exact ⟨rfl, fun _ ↦ hdistinct⟩
  | cons c rest ih =>
    rw [List.mapM_cons] at hok
    cases hc : columnStatements e original c with
    | error message =>
      rw [hc] at hok
      cases hok
    | ok statements =>
      cases hrest : rest.mapM (columnStatements e original) with
      | error message =>
        rw [hc, hrest] at hok
        cases hok
      | ok lists' =>
        rw [hc, hrest] at hok
        obtain rfl : statements :: lists' = lists := Except.ok.inj hok
        have hdone : ∀ d ∈ done, ∀ name, d.kept = some name → c.kept ≠ some name := by
          intro d hd name hname hc'
          rw [List.filterMap_append, List.nodup_append] at hkept
          exact hkept.2.2 name (List.mem_filterMap.mpr ⟨d, hd, hname⟩) name
            (List.mem_filterMap.mpr ⟨c, .head _, hc'⟩) rfl
        rw [List.flatten_cons, runAll_append,
          runAll_columnStatements hc (htrim c (.head _)) horiginal hdone hdistinct, isBlockedIn]
        cases hblocked : isBlocked toLowerCase (current original.columns done) c with
        | true => exact ⟨rfl, nofun⟩
        | false =>
          have hassoc : done ++ c :: rest = done ++ [c] ++ rest := List.append_cons done c rest
          rw [hassoc] at hkept ⊢
          rw [Bool.false_or]
          exact ih hrest (fun d hd ↦ htrim d (.tail _ hd)) hkept
            (distinct_current_concat hc horiginal hdone hdistinct hblocked)

/-! ## The dropped columns -/

theorem runAll_drops {tableName : Text} {dropped columns : List OriginalColumn} (hmem : ∀ o ∈ dropped, o ∈ columns)
    (hdistinct : Distinct toLowerCase dropped) :
    runAll toLowerCase ⟨tableName, columns⟩ (dropped.map fun o ↦ .dropColumn o.name) =
      some ⟨tableName, columns.filter fun c ↦ dropped.all fun o ↦ !isNamed toLowerCase o.name c⟩ := by
  induction dropped generalizing columns with
  | nil => exact congrArg (fun cs ↦ some (OriginalTable.mk tableName cs)) (List.filter_true columns).symm
  | cons o dropped ih =>
    have hplace : Distinct toLowerCase ([] ++ o :: dropped) := hdistinct
    obtain ⟨hne, hrest⟩ := distinct_place_iff.mp hplace
    have ho : columns.any (isNamed toLowerCase o.name) = true :=
      List.any_eq_true.mpr ⟨o, hmem o (.head _), isNamed_iff.mpr rfl⟩
    have hleft : ∀ d ∈ dropped, d ∈ columns.filter fun c ↦ !isNamed toLowerCase o.name c := by
      intro d hd
      refine List.mem_filter.mpr ⟨hmem d (.tail _ hd), ?_⟩
      rw [Bool.not_eq_true', ← Bool.not_eq_true, isNamed_iff]
      exact hne d hd
    have hfirst : Statement.run toLowerCase ⟨tableName, columns⟩ (.dropColumn o.name) =
        some ⟨tableName, columns.filter fun c ↦ !isNamed toLowerCase o.name c⟩ := if_pos ho
    rw [List.map_cons, ← List.singleton_append, runAll_append, runAll_singleton, hfirst, Option.bind_some,
      ih hleft hrest, List.filter_filter]
    refine congrArg (fun cs ↦ some (OriginalTable.mk tableName cs)) (List.filter_congr fun c _ ↦ ?_)
    rw [List.all_cons, Bool.and_comm]

theorem runAll_renameTable {tableName newName : Text} {columns : List OriginalColumn} :
    runAll toLowerCase ⟨tableName, columns⟩ (if newName ≠ tableName then [.renameTable newName] else []) =
      some ⟨newName, columns⟩ := by
  split_ifs with hname
  · exact runAll_singleton _ _
  · rw [runAll_nil, not_not.mp hname]

/-! ## The whole edit -/

theorem mem_of_mem_current {original : List OriginalColumn} {done : List AlterColumn} {x : OriginalColumn}
    (hx : x ∈ current original done) :
    (∃ d ∈ done, d.toOriginalColumn = x) ∨ x ∈ original ∧ ∀ d ∈ done, d.kept ≠ some x.name := by
  rcases List.mem_append.mp hx with hx | hx
  · obtain ⟨o, ho, rfl⟩ := List.mem_map.mp hx
    by_cases hdone : ∀ d ∈ done, d.kept ≠ some o.name
    · rw [replacement_of_forall hdone]
      exact .inr ⟨ho, hdone⟩
    · left
      unfold replacement
      cases hfind : done.find? fun c ↦ c.kept = some o.name with
      | none =>
        push Not at hdone
        obtain ⟨d, hd, hkept⟩ := hdone
        have hnot := List.find?_eq_none.mp hfind d hd
        exact absurd (decide_eq_true hkept) hnot
      | some d => exact ⟨d, List.mem_of_find?_eq_some hfind, rfl⟩
  · obtain ⟨d, hd, rfl⟩ := List.mem_map.mp hx
    exact .inl ⟨d, (List.mem_filter.mp hd).1, rfl⟩

/-- A column that none of the form has taken up yet is as it was. -/
theorem mem_current_of_untouched {original : List OriginalColumn} {done : List AlterColumn} {o : OriginalColumn}
    (ho : o ∈ original) (hdone : ∀ d ∈ done, d.kept ≠ some o.name) : o ∈ current original done :=
  List.mem_append_left _ (List.mem_map.mpr ⟨o, ho, replacement_of_forall hdone⟩)

/-- Two columns of the form do not keep the same one. -/
theorem eq_of_kept {cols : List AlterColumn} (hkept : (cols.filterMap AlterColumn.kept).Nodup) {c d : AlterColumn}
    (hc : c ∈ cols) (hd : d ∈ cols) {name : Text} (hcname : c.kept = some name) (hdname : d.kept = some name) :
    c = d := by
  by_contra hne
  have hpairs := List.pairwise_filterMap.mp hkept
  have hsymm : Std.Symm fun c d : AlterColumn ↦ ∀ m, c.kept = some m → ∀ n, d.kept = some n → m ≠ n :=
    ⟨fun c d h m hm n hn heq ↦ h n hn m hm heq.symm⟩
  exact hpairs.forall hc hd hne name hcname name hdname rfl

theorem mem_current_of_done {original : List OriginalColumn} {done : List AlterColumn}
    (hkept : (done.filterMap AlterColumn.kept).Nodup)
    (hexists : ∀ d ∈ done, ∀ name, d.kept = some name → ∃ o ∈ original, o.name = name) {d : AlterColumn}
    (hd : d ∈ done) : d.toOriginalColumn ∈ current original done := by
  cases hname : d.kept with
  | none => exact List.mem_append_right _ (List.mem_map.mpr ⟨d, List.mem_filter.mpr ⟨hd, decide_eq_true hname⟩, rfl⟩)
  | some name =>
    obtain ⟨o, ho, rfl⟩ := hexists d hd name hname
    refine List.mem_append_left _ (List.mem_map.mpr ⟨o, ho, ?_⟩)
    unfold replacement
    cases hfind : done.find? fun c ↦ c.kept = some o.name with
    | none => exact absurd (decide_eq_true hname) (List.find?_eq_none.mp hfind d hd)
    | some c =>
      have hc : c.kept = some o.name := by simpa using List.find?_some hfind
      rw [eq_of_kept hkept (List.mem_of_find?_eq_some hfind) hd hc hname]
      rfl

/-- No column of the form has the name of one that is dropped. -/
def AvoidsDropped (toLowerCase : Text → Text) (original : List OriginalColumn) (cols : List AlterColumn) : Prop :=
  ∀ o ∈ original, o.name ∉ cols.filterMap AlterColumn.kept → ∀ c ∈ cols, toLowerCase c.name ≠ toLowerCase o.name

/-- No new column has the old name of a column that comes after it in the form. -/
def AvoidsLater (toLowerCase : Text → Text) (cols : List AlterColumn) : Prop :=
  ∀ before c after, cols = before ++ c :: after → c.kept = none →
    ∀ d ∈ after, ∀ old, d.kept = some old → toLowerCase c.name ≠ toLowerCase old

/-- No renamed column takes the old name of another renamed one. -/
def NoChain (toLowerCase : Text → Text) (cols : List AlterColumn) : Prop :=
  ∀ c ∈ cols, ∀ d ∈ cols, ∀ old other, c.kept = some old → d.kept = some other → old ≠ other → c.name ≠ old →
    d.name ≠ other → toLowerCase c.name ≠ toLowerCase other

/-- It takes two columns with an old name. -/
theorem noChain_of_filterMap {cols : List AlterColumn} {name : Text} (h : cols.filterMap AlterColumn.kept = [name]) :
    NoChain toLowerCase cols := by
  have hname {c : AlterColumn} (hc : c ∈ cols) {old : Text} (hold : c.kept = some old) : old = name :=
    List.mem_singleton.mp (h ▸ List.mem_filterMap.mpr ⟨c, hc, hold⟩)
  intro c hc d hd old other hold hother hne
  exact absurd ((hname hc hold).trans (hname hd hother).symm) hne

/-- Columns with one name in whatever letters are one. -/
theorem Distinct.eq_of_name {columns : List OriginalColumn} (h : Distinct toLowerCase columns) {c d : OriginalColumn}
    (hc : c ∈ columns) (hd : d ∈ columns) (hname : toLowerCase c.name = toLowerCase d.name) : c = d :=
  List.inj_on_of_nodup_map h hc hd hname

section Edit

variable {original : List OriginalColumn} {cols : List AlterColumn} (horiginal : Distinct toLowerCase original)
  (hnames : (cols.map fun c ↦ toLowerCase c.name).Nodup) (hkept : (cols.filterMap AlterColumn.kept).Nodup)
  (hexists : ∀ d ∈ cols, ∀ name, d.kept = some name → ∃ o ∈ original, o.name = name)

include horiginal hnames hkept hexists

/-- Without a chain of renames, a column is blocked by a dropped one or, where it is new, by one still to be renamed. -/
theorem isBlockedIn_eq_false_iff (hchain : NoChain toLowerCase cols) :
    isBlockedIn toLowerCase original [] cols = false ↔
      AvoidsDropped toLowerCase original cols ∧ AvoidsLater toLowerCase cols := by
  rw [← Bool.not_eq_true, isBlockedIn_iff]
  constructor
  · intro hfree
    constructor
    · intro o ho hdropped c hc hname
      obtain ⟨before, after, rfl⟩ := List.append_of_mem hc
      have hnot : ∀ d ∈ before ++ c :: after, d.kept ≠ some o.name := fun d hd heq ↦
        hdropped (List.mem_filterMap.mpr ⟨d, hd, heq⟩)
      have ho' : o ∈ current original before :=
        mem_current_of_untouched ho fun d hd ↦ hnot d (List.mem_append_left _ hd)
      refine hfree ⟨before, c, after, rfl, List.any_eq_true.mpr ⟨o, ho', ?_⟩⟩
      rw [Bool.and_eq_true, isNamed_iff, decide_eq_true_eq]
      exact ⟨hname.symm, hnot c hc⟩
    · intro before c after hcols hnew d hd old hold hname
      have hdcols : d ∈ cols := hcols ▸ List.mem_append_right before (.tail c hd)
      obtain ⟨o, ho, rfl⟩ := hexists d hdcols old hold
      have hbefore : ∀ b ∈ before, b.kept ≠ some o.name := by
        intro b hb heq
        have hbcols : b ∈ cols := hcols ▸ List.mem_append_left _ hb
        obtain rfl := eq_of_kept hkept hbcols hdcols heq hold
        rw [hcols, List.map_append, List.nodup_append] at hnames
        exact hnames.2.2 _ (List.mem_map_of_mem hb) _ (List.mem_map_of_mem (.tail c hd)) rfl
      refine hfree ⟨before, c, after, hcols, List.any_eq_true.mpr ⟨o, mem_current_of_untouched ho hbefore, ?_⟩⟩
      rw [Bool.and_eq_true, isNamed_iff, decide_eq_true_eq, hnew]
      exact ⟨hname.symm, nofun⟩
  · intro ⟨hdropped, hlater⟩ ⟨before, c, after, hcols, hblocked⟩
    obtain ⟨x, hx, hnamed⟩ := List.any_eq_true.mp hblocked
    rw [Bool.and_eq_true, isNamed_iff, decide_eq_true_eq] at hnamed
    obtain ⟨hname, hother⟩ := hnamed
    have hc : c ∈ cols := hcols ▸ List.mem_append_right before (.head _)
    have hcolumn {d : AlterColumn} (hd : d ∈ cols) (hdc : toLowerCase d.name = toLowerCase c.name) : d = c :=
      List.inj_on_of_nodup_map hnames hd hc hdc
    rcases mem_of_mem_current hx with ⟨d, hd, rfl⟩ | ⟨ho, hbefore⟩
    · have hd' : d ∈ cols := hcols ▸ List.mem_append_left _ hd
      obtain rfl := hcolumn hd' hname
      rw [hcols, List.map_append, List.nodup_append] at hnames
      exact hnames.2.2 _ (List.mem_map_of_mem hd) _ (List.mem_map_of_mem (.head _)) rfl
    by_cases hmem : x.name ∈ cols.filterMap AlterColumn.kept
    · obtain ⟨d, hd, hold⟩ := List.mem_filterMap.mp hmem
      have hafter : d ∈ after := by
        rcases List.mem_append.mp (hcols ▸ hd) with hd | hd
        · exact absurd hold (hbefore d hd)
        · rcases List.mem_cons.mp hd with rfl | hd
          · exact absurd hold hother
          · exact hd
      cases hc' : c.kept with
      | none => exact hlater before c after hcols hc' d hafter x.name hold hname.symm
      | some old =>
        have hne : old ≠ x.name := fun heq ↦ hother (hc'.trans (congrArg some heq))
        refine hchain c hc d hd old x.name hc' hold hne ?_ ?_ hname.symm
        · intro hsame
          obtain ⟨o, ho', rfl⟩ := hexists c hc old hc'
          have heq : x = o := horiginal.eq_of_name ho ho' (hname.trans (congrArg toLowerCase hsame))
          exact hne (congrArg OriginalColumn.name heq.symm)
        · intro hsame
          obtain rfl := hcolumn hd ((congrArg toLowerCase hsame).trans hname)
          exact hother hold
    · exact hdropped x ho hmem c hc hname.symm

omit horiginal in
/-- With the dropped columns gone those of the form are left. -/
theorem perm_columns (hdistinct : Distinct toLowerCase (current original cols))
    (havoids : AvoidsDropped toLowerCase original cols) :
    ((current original cols).filter fun c ↦
      (original.filter fun o ↦ o.name ∉ cols.filterMap AlterColumn.kept).all fun o ↦
        !isNamed toLowerCase o.name c).Perm (cols.map (·.toOriginalColumn)) := by
  have hleft : (current original cols).Nodup := hdistinct.of_map _
  have hright : (cols.map (·.toOriginalColumn)).Nodup := by
    refine List.Nodup.of_map (fun c : OriginalColumn ↦ toLowerCase c.name) ?_
    rwa [List.map_map]
  refine (List.perm_ext_iff_of_nodup (hleft.filter _) hright).mpr fun x ↦ ?_
  rw [List.mem_filter, List.all_eq_true, List.mem_map]
  constructor
  · intro ⟨hx, hnot⟩
    rcases mem_of_mem_current hx with hdone | ⟨ho, hcols⟩
    · exact hdone
    · have hdropped : x.name ∉ cols.filterMap AlterColumn.kept := fun hmem ↦
        have ⟨d, hd, hold⟩ := List.mem_filterMap.mp hmem
        hcols d hd hold
      have hx' := hnot x (List.mem_filter.mpr ⟨ho, decide_eq_true hdropped⟩)
      rw [Bool.not_eq_true', ← Bool.not_eq_true, isNamed_iff] at hx'
      exact absurd rfl hx'
  · rintro ⟨d, hd, rfl⟩
    have hmem := mem_current_of_done hkept hexists hd
    refine ⟨hmem, fun o ho ↦ ?_⟩
    obtain ⟨ho, hdropped⟩ := List.mem_filter.mp ho
    rw [Bool.not_eq_true', ← Bool.not_eq_true, isNamed_iff]
    exact havoids o ho (of_decide_eq_true hdropped) d hd

end Edit

/-- An accepted edit has its columns' statements, then the drops, then the table's new name. -/
theorem buildAlterTable_eq_ok {engine : Text} {original : OriginalTable} {edited : AlterTableDef}
    {statements : List Statement} (hok : buildAlterTable toLowerCase engine original edited = .ok statements) :
    let cols := edited.columns.map trimColumn
    (cols.map fun c ↦ toLowerCase c.name).Nodup ∧
      ∃ lists, cols.mapM (columnStatements (jsLower engine) original) = .ok lists ∧
        statements = lists.flatten ++ dropStatements original cols ++
          if jsTrim edited.name ≠ original.name then [.renameTable (jsTrim edited.name)] else [] := by
  unfold buildAlterTable at hok
  dsimp only at hok ⊢
  by_cases hnil : edited.columns.map trimColumn = []
  · rw [if_pos hnil] at hok
    cases hok
  rw [if_neg hnil] at hok
  cases herror : (edited.columns.map trimColumn).findSome? columnError with
  | some error =>
    rw [herror] at hok
    cases hok
  | none =>
    rw [herror] at hok
    dsimp only at hok
    by_cases hnames : ((edited.columns.map trimColumn).map fun c ↦ toLowerCase c.name).Nodup
    swap
    · rw [if_pos hnames] at hok
      cases hok
    rw [if_neg (not_not.mpr hnames)] at hok
    by_cases hname : jsTrim edited.name = []
    · rw [if_pos hname] at hok
      cases hok
    rw [if_neg hname] at hok
    cases hlists : (edited.columns.map trimColumn).mapM (columnStatements (jsLower engine) original) with
    | error error =>
      rw [hlists] at hok
      cases hok
    | ok lists =>
      rw [hlists] at hok
      exact ⟨hnames, lists, rfl, (Except.ok.inj hok).symm⟩

/-- The statements of an accepted edit lead to the edited table, whatever the engine, where no column takes the name
of a dropped one and no new column the old name of a column after it; else one of them fails. -/
theorem buildAlterTable_reaches_iff (engine : Text) (original : OriginalTable) (edited : AlterTableDef)
    (statements : List Statement) (hok : buildAlterTable toLowerCase engine original edited = .ok statements)
    (horiginal : Distinct toLowerCase original.columns)
    (hkept : ((edited.columns.map trimColumn).filterMap AlterColumn.kept).Nodup)
    (hchain : NoChain toLowerCase (edited.columns.map trimColumn)) :
    (∃ table, runAll toLowerCase original statements = some table ∧ table.name = jsTrim edited.name ∧
        table.columns.Perm ((edited.columns.map trimColumn).map (·.toOriginalColumn))) ↔
      AvoidsDropped toLowerCase original.columns (edited.columns.map trimColumn) ∧
        AvoidsLater toLowerCase (edited.columns.map trimColumn) := by
  obtain ⟨hnames, lists, hlists, rfl⟩ := buildAlterTable_eq_ok hok
  set cols := edited.columns.map trimColumn with hcols
  have hexists : ∀ d ∈ cols, ∀ name, d.kept = some name → ∃ o ∈ original.columns, o.name = name :=
    fun d hd name hname ↦
      have ⟨_, hstatements⟩ := Traversal.exists_of_mapM hlists hd
      exists_of_columnStatements hstatements hname
  have htrim : ∀ c ∈ cols, alterColumnClause c = c.toOriginalColumn := by
    intro c hc
    obtain ⟨c, _, rfl⟩ := List.mem_map.mp hc
    exact alterColumnClause_trimColumn c
  have hstart : current original.columns [] = original.columns := by
    unfold current
    rw [List.filter_nil, List.map_nil, List.append_nil]
    exact List.map_id _
  have hkept' : (([] ++ cols).filterMap AlterColumn.kept).Nodup := hkept
  obtain ⟨hrun, hdistinct⟩ := runAll_columns horiginal hlists htrim hkept' (hstart.symm ▸ horiginal)
  rw [hstart, List.nil_append] at hrun
  rw [← isBlockedIn_eq_false_iff horiginal hnames hkept hexists hchain, List.append_assoc, runAll_append]
  cases hblocked : isBlockedIn toLowerCase original.columns [] cols with
  | true =>
    rw [hblocked, if_pos rfl] at hrun
    refine iff_of_false ?_ nofun
    rintro ⟨table, hsome, _⟩
    have heq : runAll toLowerCase original lists.flatten = none := hrun
    rw [heq] at hsome
    cases hsome
  | false =>
    rw [hblocked, if_neg nofun] at hrun
    obtain ⟨havoids, _⟩ := (isBlockedIn_eq_false_iff horiginal hnames hkept hexists hchain).mp hblocked
    have huntouched : ∀ o ∈ original.columns.filter fun o ↦ o.name ∉ cols.filterMap AlterColumn.kept,
        o ∈ current original.columns cols := by
      intro o ho
      obtain ⟨ho, hdropped⟩ := List.mem_filter.mp ho
      exact mem_current_of_untouched ho fun d hd heq ↦
        of_decide_eq_true hdropped (List.mem_filterMap.mpr ⟨d, hd, heq⟩)
    have hdrops := @runAll_drops _ original.name _ _ huntouched (horiginal.sublist (List.filter_sublist.map _))
    have heq : runAll toLowerCase original lists.flatten = some ⟨original.name, current original.columns cols⟩ := hrun
    rw [heq, Option.bind_some, dropStatements, runAll_append, hdrops, Option.bind_some, runAll_renameTable]
    exact iff_of_true ⟨_, rfl, rfl, perm_columns hnames hkept hexists (hdistinct hblocked) havoids⟩ rfl

end

/-- A table with the columns `a` and `b`. -/
def twoColumns : OriginalTable where
  name := "t".toList
  columns := [⟨"a".toList, "INT".toList, true, []⟩, ⟨"b".toList, "INT".toList, true, []⟩]

/-- The column `a` goes and a new one has its name. -/
def newForDropped : AlterTableDef where
  name := "t".toList
  columns := [{ name := "b".toList, type := "INT".toList, nullable := true, defaultValue := [], origName := "b".toList },
    { name := "a".toList, type := "DATE".toList, nullable := true, defaultValue := [], origName := none }]
  container := none

/-- The new column is added while the dropped one is still there. -/
theorem newForDropped_fails :
    ["mysql".toList, "postgres".toList, "sqlite".toList].Forall fun engine ↦
      ∃ statements, buildAlterTable jsLower engine twoColumns newForDropped = .ok statements ∧
        Distinct jsLower twoColumns.columns ∧
        ((newForDropped.columns.map trimColumn).filterMap AlterColumn.kept).Nodup ∧
        NoChain jsLower (newForDropped.columns.map trimColumn) ∧ runAll jsLower twoColumns statements = none := by
  have hone : (newForDropped.columns.map trimColumn).filterMap AlterColumn.kept = ["b".toList] := by decide +kernel
  refine List.forall_iff_forall_mem.mpr fun engine hengine ↦ ?_
  refine ⟨[.addColumn ⟨"a".toList, "DATE".toList, true, []⟩, .dropColumn "a".toList], ?_, ?_, ?_,
    noChain_of_filterMap hone, ?_⟩
  · revert engine
    decide +kernel
  · unfold Distinct
    decide +kernel
  · decide +kernel
  · decide +kernel

/-- The column `a` goes, `b` is `c` now and a column is new. -/
def plainEdit : AlterTableDef where
  name := "u".toList
  columns := [{ name := "c".toList, type := "INT".toList, nullable := true, defaultValue := [], origName := "b".toList },
    { name := "d".toList, type := "DATE".toList, nullable := true, defaultValue := [], origName := none }]
  container := none

theorem buildAlterTable_reaches_iff_plainEdit :
    (∃ table, runAll jsLower twoColumns
          [.changeColumn "b".toList ⟨"c".toList, "INT".toList, true, []⟩,
            .addColumn ⟨"d".toList, "DATE".toList, true, []⟩, .dropColumn "a".toList, .renameTable "u".toList] =
        some table ∧ table.name = jsTrim plainEdit.name ∧
        table.columns.Perm ((plainEdit.columns.map trimColumn).map (·.toOriginalColumn))) ↔
      AvoidsDropped jsLower twoColumns.columns (plainEdit.columns.map trimColumn) ∧
        AvoidsLater jsLower (plainEdit.columns.map trimColumn) := by
  have hone : (plainEdit.columns.map trimColumn).filterMap AlterColumn.kept = ["b".toList] := by decide +kernel
  refine buildAlterTable_reaches_iff "mysql".toList twoColumns plainEdit _ ?_ ?_ ?_ (noChain_of_filterMap hone)
  · decide +kernel
  · unfold Distinct
    decide +kernel
  · decide +kernel

end Squaero.Front.TableDesign
