import Squaero.Front.Import
import Squaero.Front.SchemaDiff
import Squaero.Front.SqlVariables
import Squaero.Lib.Grouping
import Squaero.Lib.JsArith

/-!
# Tables from catalog rows

`utils/schemaCatalog.ts` reads the keys, checks and indexes of a schema from flat rows, one for each column. The rows
are gathered by table, kind and name, sorted by position, and put into the table of the name, which is looked up in
lower case. Tables whose names differ in case only are one table to it.
-/

namespace Squaero.Front.Catalog

open Squaero.Lib Binary64 Schemas

/-! ## Rows -/

/-- `Record<string, string | null>` -/
abbrev Row := List (Text × Cell)

def field (r : Row) (name : String) : Cell := (r.lookup name.toList).join

/-- `(v ?? "").trim()` -/
def trim (v : Cell) : Text := jsTrim (v.getD [])

/-- `Number(r.position)`. A position that is no finite number compares with nothing, and counts as 0 here. -/
def position (r : Row) : ℚ :=
  match numberOf ((field r "position").getD []) with
  | .finite negative m => if negative then -m.value else m.value
  | _ => 0

def groups (rows : List Row) (key : Row → Text) : List (List Row) := Grouping.groups key position rows

section

variable (toLowerCase : Text → Text)

/-- `Object.fromEntries(names.map((n, i) => [n, r[i] ?? null]))` -/
def recordOf (names : List Text) (r : List Cell) : Row :=
  names.zipIdx.foldl (fun record n ↦ Records.put n.1 (r[n.2]?.join) record) []

def records (columns : List Text) (rows : List (List Cell)) : List Row :=
  rows.map (recordOf (columns.map toLowerCase))

/-- `new Map(tables.map((t) => [t.name.toLowerCase(), t]))`, a table by its place. -/
def byName (names : List Text) : List (Text × ℕ) :=
  names.zipIdx.foldl (fun m n ↦ Records.put (toLowerCase n.1) n.2 m) []

/-- What is done to each of `tables.values()`. -/
def forValues (m : List (Text × ℕ)) (change : TableDef → TableDef) (tables : List TableDef) : List TableDef :=
  tables.mapIdx fun i t ↦ if i ∈ m.map Prod.snd then change t else t

/-- What is done to `tables.get(name.toLowerCase())`. -/
def changeNamed (m : List (Text × ℕ)) (name : Text) (change : TableDef → TableDef) (tables : List TableDef) :
    List TableDef :=
  match m.lookup (toLowerCase name) with
  | none => tables
  | some i => tables.modify i change

def constraintKey (r : Row) : Text :=
  trim (field r "table_name") ++ '\x00' :: (trim (field r "kind") ++ '\x00' :: trim (field r "constraint_name"))

/-- One group put into its table. -/
def addConstraint (engine : Text) (g : List Row) (first : Row) (table : TableDef) : TableDef :=
  let raw := trim (field first "constraint_name")
  let name := if engineFamily engine = "sqlite".toList ∨ raw = [] ∨ raw = "PRIMARY".toList then none else some raw
  let columns := g.map fun r ↦ trim (field r "column_name")
  let kind := jsUpper (trim (field first "kind"))
  if kind = ['P'] then { table with primaryKey := some ⟨name, columns⟩ }
  else if kind = ['U'] then { table with uniques := table.uniques ++ [⟨name, columns⟩] }
  else if kind = ['F'] ∨ kind = ['R'] then
    { table with
      foreignKeys := table.foreignKeys ++
        [⟨name, columns, trim (field first "ref_table"), g.map fun r ↦ trim (field r "ref_column")⟩] }
  else table

def addGroup (m : List (Text × ℕ)) (engine : Text) (tables : List TableDef) (g : List Row) : List TableDef :=
  match g with
  | [] => tables
  | first :: _ => changeNamed toLowerCase m (trim (field first "table_name")) (addConstraint engine g first) tables

/-- The columns of the parent's primary key where some are left out and it has as many. -/
def fillReference (m : List (Text × ℕ)) (tables : List TableDef) (fk : ForeignKeyDef) : ForeignKeyDef :=
  if [] ∈ fk.refColumns then
    match (m.lookup (toLowerCase fk.refTable)).bind fun i ↦ (tables[i]?).bind (·.primaryKey) with
    | some pk => if pk.columns.length = fk.columns.length then { fk with refColumns := pk.columns } else fk
    | none => fk
  else fk

def applyConstraints (tables : List TableDef) (engine : Text) (columns : List Text) (rows : List (List Cell)) :
    List TableDef :=
  let m := byName toLowerCase (tables.map (·.name))
  let cleared := forValues m (fun t ↦ { t with primaryKey := none }) tables
  let keyed := (groups (records toLowerCase columns rows) constraintKey).foldl (addGroup toLowerCase m engine) cleared
  -- the loop touches no primary key, so it may read those it started with
  forValues m (fun t ↦ { t with foreignKeys := t.foreignKeys.map (fillReference toLowerCase m keyed) }) keyed

/-- `.replace(/^check\s*/i, "")` -/
def stripCheck (definition : Text) : Text :=
  if (definition.take 5).map Char.toLower = "check".toList then (definition.drop 5).dropWhile isJsSpace else definition

def addCheck (m : List (Text × ℕ)) (tables : List TableDef) (r : Row) : List TableDef :=
  let raw := trim (field r "constraint_name")
  let check : CheckDef := ⟨if raw = [] then none else some raw, stripCheck (trim (field r "definition"))⟩
  changeNamed toLowerCase m (trim (field r "table_name")) (fun t ↦ { t with checks := t.checks ++ [check] }) tables

def applyChecks (tables : List TableDef) (columns : List Text) (rows : List (List Cell)) : List TableDef :=
  let m := byName toLowerCase (tables.map (·.name))
  (records toLowerCase columns rows).foldl (addCheck toLowerCase m) tables

def indexKey (r : Row) : Text := trim (field r "table_name") ++ '\x00' :: trim (field r "index_name")

/-- One group of index rows. What is left out is kept as the two names of the text `table.index`. -/
def addIndex (m : List (Text × ℕ)) (st : List TableDef × List (Text × Text)) (g : List Row) :
    List TableDef × List (Text × Text) :=
  match g with
  | [] => st
  | first :: _ =>
    match m.lookup (toLowerCase (trim (field first "table_name"))) with
    | none => st
    | some i =>
      let name := trim (field first "index_name")
      if g.any fun r ↦ trim (field r "special") = ['1'] || trim (field r "column_name") = [] then
        (st.1, st.2 ++ (st.1[i]?).toList.map fun t ↦ (t.name, name))
      else
        let index : IndexDef := ⟨name, g.map fun r ↦ trim (field r "column_name"), trim (field first "is_unique") = ['1']⟩
        (st.1.modify i fun t ↦ { t with indexes := t.indexes ++ [index] }, st.2)

def applyIndexes (tables : List TableDef) (columns : List Text) (rows : List (List Cell)) :
    List TableDef × List (Text × Text) :=
  let m := byName toLowerCase (tables.map (·.name))
  (groups (records toLowerCase columns rows) indexKey).foldl (addIndex toLowerCase m) (tables, [])

/-- A table as `readSnapshot` starts it, from its name, its columns and those that are flagged as key. -/
def startTable (name : Text) (columns : List ColumnDef) (pk : List Text) : TableDef :=
  { name := name, columns := columns, primaryKey := if pk = [] then none else some ⟨none, pk⟩
    uniques := [], indexes := [], foreignKeys := [], checks := [] }

end

/-! ## Schemas and how catalogs list them -/

/-- A key with the name that the catalog lists and its columns with their positions. -/
structure Key where
  listed : Option Text
  columns : List (ℕ × Text)
  deriving DecidableEq

/-- A foreign key; SQLite may leave the columns that it refers to out. -/
structure Foreign where
  key : Key
  refTable : Text
  refColumns : Option (List Text)
  deriving DecidableEq

structure Check where
  listed : Option Text
  expr : Text
  deriving DecidableEq

/-- A column of an index, none for an expression. -/
structure Part where
  position : ℕ
  column : Option Text
  special : Bool
  deriving DecidableEq

structure Index where
  name : Text
  unique : Bool
  parts : List Part
  deriving DecidableEq

structure Table where
  name : Text
  columns : List ColumnDef
  /-- The columns that `schema.describe` flags as key. -/
  flagged : List Text
  primaryKey : Option Key
  uniques : List Key
  foreignKeys : List Foreign
  checks : List Check
  indexes : List Index
  deriving DecidableEq

inductive Constraint
  | primary (key : Key)
  | unique (key : Key)
  | foreign (fk : Foreign)

namespace Constraint

def key : Constraint → Key
  | primary key => key
  | unique key => key
  | foreign fk => fk.key

def letter (engine : Text) : Constraint → Char
  | primary _ => 'P'
  | unique _ => 'U'
  | foreign _ => if engineFamily engine = "informix".toList then 'R' else 'F'

def refTable : Constraint → Cell
  | foreign fk => some fk.refTable
  | _ => none

def refColumn (i : ℕ) : Constraint → Cell
  | foreign fk => fk.refColumns.bind (·[i]?)
  | _ => none

/-- The rows of a constraint, one for each column. -/
def rows (engine table : Text) (c : Constraint) : List (List Cell) :=
  c.key.columns.zipIdx.map fun p ↦ [some table, c.key.listed, some [c.letter engine], some p.1.2,
    some (Nat.toDigits 10 p.1.1), c.refTable, c.refColumn p.2]

end Constraint

def Table.constraints (t : Table) : List Constraint :=
  t.primaryKey.toList.map .primary ++ (t.uniques.map .unique ++ t.foreignKeys.map .foreign)

/-- PostgreSQL lists a check with its keyword. -/
def Check.row (engine table : Text) (c : Check) : List Cell :=
  [some table, c.listed,
    some (if engineFamily engine = "postgres".toList then "CHECK ".toList ++ c.expr else c.expr)]

def flag (b : Bool) : Cell := some [if b then '1' else '0']

def Index.rows (table : Text) (i : Index) : List (List Cell) :=
  i.parts.map fun p ↦ [some table, some i.name, flag i.unique, p.column, some (Nat.toDigits 10 p.position), flag p.special]

/-- An index that cannot be compared. -/
def Index.isSpecial (i : Index) : Bool := i.parts.any fun p ↦ p.special || p.column.isNone

def constraintColumns : List Text :=
  ["table_name".toList, "constraint_name".toList, "kind".toList, "column_name".toList, "position".toList,
    "ref_table".toList, "ref_column".toList]

def checkColumns : List Text := ["table_name".toList, "constraint_name".toList, "definition".toList]

def indexColumns : List Text :=
  ["table_name".toList, "index_name".toList, "is_unique".toList, "column_name".toList, "position".toList,
    "special".toList]

/-- A catalog result: columns that are these in lower case, and the rows of the schema in any order. -/
structure Lists (toLowerCase : Text → Text) (aliases : List Text) (listing : List (List Cell)) (columns : List Text)
    (rows : List (List Cell)) : Prop where
  columns_eq : columns.map toLowerCase = aliases
  rows_perm : rows.Perm listing

/-- A name with something in it, no blanks around it and, as in every engine, no NUL. -/
structure IsName (n : Text) : Prop where
  trimmed : jsTrim n = n
  ne_nil : n ≠ []
  no_nul : '\x00' ∉ n

/-- Positions that grow and are whole numbers to JavaScript. -/
def Positioned (positions : List ℕ) : Prop := positions.Pairwise (· < ·) ∧ ∀ p ∈ positions, p ≤ 2 ^ 53

structure Key.Ok (k : Key) : Prop where
  listed_ok : ∀ n, k.listed = some n → IsName n
  ne_nil : k.columns ≠ []
  names_ok : ∀ c ∈ k.columns, IsName c.2
  positioned : Positioned (k.columns.map Prod.fst)

structure Foreign.Ok (f : Foreign) : Prop where
  table_ok : IsName f.refTable
  columns_ok : ∀ cs, f.refColumns = some cs → cs.length = f.key.columns.length ∧ ∀ c ∈ cs, IsName c

structure Check.Ok (c : Check) : Prop where
  listed_ok : ∀ n, c.listed = some n → IsName n
  trimmed : jsTrim c.expr = c.expr
  ne_nil : c.expr ≠ []

structure Index.Ok (i : Index) : Prop where
  name_ok : IsName i.name
  ne_nil : i.parts ≠ []
  names_ok : ∀ p ∈ i.parts, ∀ c, p.column = some c → IsName c
  positioned : Positioned (i.parts.map Part.position)

structure Table.Ok (engine : Text) (t : Table) : Prop where
  name_ok : IsName t.name
  keys_ok : ∀ c ∈ t.constraints, c.key.Ok
  keys_apart : (t.constraints.map fun c ↦ (c.letter engine, c.key.listed)).Nodup
  foreign_ok : ∀ f ∈ t.foreignKeys, f.Ok
  checks_ok : ∀ c ∈ t.checks, c.Ok
  indexes_ok : ∀ i ∈ t.indexes, i.Ok
  indexes_apart : (t.indexes.map Index.name).Nodup
  flagged_perm : t.flagged.Perm ((t.primaryKey.map fun k ↦ k.columns.map Prod.snd).getD [])

/-- The table that a foreign key of SQLite refers to: there the letters of ASCII have one case. -/
def parentOf (tables : List Table) (f : Foreign) : Option Table :=
  tables.find? fun p ↦ p.name.map Char.toLower = f.refTable.map Char.toLower

def parentKey (tables : List Table) (f : Foreign) : Option Key := (parentOf tables f).bind Table.primaryKey

structure SchemaOk (engine : Text) (tables : List Table) : Prop where
  names_apart : (tables.map Table.name).Nodup
  tables_ok : ∀ t ∈ tables, t.Ok engine
  /-- Columns are left out only where a primary key of as many stands for them. -/
  parents : ∀ t ∈ tables, ∀ f ∈ t.foreignKeys, f.refColumns = none →
    ∃ k, parentKey tables f = some k ∧ k.columns.length = f.key.columns.length

/-! ## What should be read -/

/-- Names that SQLite makes up and `PRIMARY` are none. -/
def shownName (engine : Text) (listed : Option Text) : Option Text :=
  if engineFamily engine = "sqlite".toList ∨ listed = some "PRIMARY".toList then none else listed

def keyDef (engine : Text) (k : Key) : KeyDef := ⟨shownName engine k.listed, k.columns.map Prod.snd⟩

def foreignDef (engine : Text) (tables : List Table) (f : Foreign) : ForeignKeyDef :=
  ⟨shownName engine f.key.listed, f.key.columns.map Prod.snd, f.refTable,
    f.refColumns.getD (((parentKey tables f).map fun k ↦ k.columns.map Prod.snd).getD [])⟩

def checkDef (c : Check) : CheckDef := ⟨c.listed, c.expr⟩

def indexDef (i : Index) : IndexDef := ⟨i.name, i.parts.map fun p ↦ p.column.getD [], i.unique⟩

/-- A table has what is its own and nothing else. -/
structure Exact (engine : Text) (tables : List Table) (t : Table) (d : TableDef) : Prop where
  name_eq : d.name = t.name
  columns_eq : d.columns = t.columns
  primaryKey_eq : d.primaryKey = t.primaryKey.map (keyDef engine)
  uniques_perm : d.uniques.Perm (t.uniques.map (keyDef engine))
  foreignKeys_perm : d.foreignKeys.Perm (t.foreignKeys.map (foreignDef engine tables))
  checks_perm : d.checks.Perm (t.checks.map checkDef)
  indexes_perm : d.indexes.Perm ((t.indexes.filter fun i ↦ !i.isSpecial).map indexDef)

def specials (tables : List Table) : List (Text × Text) :=
  tables.flatMap fun t ↦ (t.indexes.filter Index.isSpecial).map fun i ↦ (t.name, i.name)

/-- The catalog results of a schema. -/
structure Results where
  constraintColumns : List Text
  constraints : List (List Cell)
  checkColumns : List Text
  checks : List (List Cell)
  indexColumns : List Text
  indexes : List (List Cell)

structure Results.Of (toLowerCase : Text → Text) (engine : Text) (tables : List Table) (r : Results) : Prop where
  constraints : Lists toLowerCase Catalog.constraintColumns
    (tables.flatMap fun t ↦ t.constraints.flatMap (·.rows engine t.name)) r.constraintColumns r.constraints
  checks : Lists toLowerCase Catalog.checkColumns (tables.flatMap fun t ↦ t.checks.map (·.row engine t.name))
    r.checkColumns r.checks
  indexes : Lists toLowerCase Catalog.indexColumns (tables.flatMap fun t ↦ t.indexes.flatMap (·.rows t.name))
    r.indexColumns r.indexes

/-- The part of `readSnapshot` that fills the tables from the catalogs. -/
def fillTables (toLowerCase : Text → Text) (engine : Text) (tables : List TableDef) (r : Results) :
    List TableDef × List (Text × Text) :=
  let keyed := applyConstraints toLowerCase tables engine r.constraintColumns r.constraints
  let checked := applyChecks toLowerCase keyed r.checkColumns r.checks
  applyIndexes toLowerCase checked r.indexColumns r.indexes

/-- What is read of a schema. -/
def readTables (toLowerCase : Text → Text) (engine : Text) (tables : List Table) (r : Results) :
    List TableDef × List (Text × Text) :=
  fillTables toLowerCase engine (tables.map fun t ↦ startTable t.name t.columns t.flagged) r

/-! ## Rows read -/

theorem Lists.records_perm {toLowerCase : Text → Text} {aliases : List Text} {listing : List (List Cell)}
    {columns : List Text} {rows : List (List Cell)} (h : Lists toLowerCase aliases listing columns rows) :
    (records toLowerCase columns rows).Perm (listing.map (recordOf aliases)) := by
  rw [records, h.columns_eq]
  exact h.rows_perm.map _

section

variable (table name kind column position' refTable refColumn : Cell)

theorem fields_constraint :
    let r := recordOf constraintColumns [table, name, kind, column, position', refTable, refColumn]
    field r "table_name" = table ∧ field r "constraint_name" = name ∧ field r "kind" = kind ∧
      field r "column_name" = column ∧ field r "position" = position' ∧ field r "ref_table" = refTable ∧
      field r "ref_column" = refColumn := ⟨rfl, rfl, rfl, rfl, rfl, rfl, rfl⟩

theorem fields_check :
    let r := recordOf checkColumns [table, name, kind]
    field r "table_name" = table ∧ field r "constraint_name" = name ∧ field r "definition" = kind := ⟨rfl, rfl, rfl⟩

theorem fields_index :
    let r := recordOf indexColumns [table, name, kind, column, position', refTable]
    field r "table_name" = table ∧ field r "index_name" = name ∧ field r "is_unique" = kind ∧
      field r "column_name" = column ∧ field r "position" = position' ∧ field r "special" = refTable :=
  ⟨rfl, rfl, rfl, rfl, rfl, rfl⟩

end

theorem position_eq {r : Row} {n : ℕ} (h : field r "position" = some (Nat.toDigits 10 n)) (hn : n ≤ 2 ^ 53) :
    position r = n := by
  have hdouble : toDouble (n : ℚ) = some (n : ℚ) := toDouble_natCast hn
  have hnumber : numberOf (Nat.toDigits 10 n) = .finite false ⟨n, Nat.cast_nonneg n, hdouble⟩ := by
    rw [numberOf_digits (Json.digits_toDigits n), JsNum.ofNonneg,
      @Magnitude.round_eq ⟨n, Nat.cast_nonneg n, hdouble⟩ _ _ (by rw [Json.natOfDigits_toDigits]; exact hdouble)]
  rw [position, h, Option.getD_some, hnumber]
  rfl

theorem trim_of_isName {n : Text} (h : IsName n) : trim (some n) = n := h.trimmed

/-! ## Constraints by group -/

/-- What the tables have, each with its table. -/
def owned {β : Type} (f : Table → List β) (tables : List Table) : List (Table × β) :=
  tables.flatMap fun t ↦ (f t).map (t, ·)

abbrev entries : List Table → List (Table × Constraint) := owned Table.constraints

def constraintRecords (engine : Text) (e : Table × Constraint) : List Row :=
  (e.2.rows engine e.1.name).map (recordOf constraintColumns)

/-- What the rows of a constraint are gathered by. -/
def entryKey (engine : Text) (e : Table × Constraint) : Text :=
  e.1.name ++ '\x00' :: ([e.2.letter engine] ++ '\x00' :: e.2.key.listed.getD [])

theorem mem_owned {β : Type} {f : Table → List β} {tables : List Table} {e : Table × β} :
    e ∈ owned f tables ↔ e.1 ∈ tables ∧ e.2 ∈ f e.1 := by
  unfold owned
  simp only [List.mem_flatMap, List.mem_map]
  constructor
  · rintro ⟨t, ht, c, hc, rfl⟩
    exact ⟨ht, hc⟩
  · exact fun h ↦ ⟨e.1, h.1, e.2, h.2, rfl⟩

/-- Names without NUL are told apart around one. -/
theorem append_nul_inj {a b x y : Text} (ha : '\x00' ∉ a) (hb : '\x00' ∉ b) (h : a ++ '\x00' :: x = b ++ '\x00' :: y) :
    a = b ∧ x = y := by
  have hcut (a x : Text) (ha : '\x00' ∉ a) : (a ++ '\x00' :: x).takeWhile (· ≠ '\x00') = a := by
    have hkeep : ∀ c ∈ a, decide (c ≠ '\x00') = true := fun c hc ↦ decide_eq_true fun h ↦ ha (h ▸ hc)
    rw [List.takeWhile_append_of_pos hkeep, List.takeWhile_cons]
    simp
  have hsame : a = b := by rw [← hcut a x ha, h, hcut b y hb]
  subst hsame
  exact ⟨rfl, (List.cons_inj_right _).mp (List.append_cancel_left h)⟩

theorem letter_mem (engine : Text) (c : Constraint) : c.letter engine ∈ ['P', 'U', 'F', 'R'] := by
  cases c with
  | primary => exact .head _
  | unique => exact .tail _ (.head _)
  | foreign =>
    unfold Constraint.letter
    dsimp only
    split_ifs
    · exact .tail _ (.tail _ (.tail _ (.head _)))
    · exact .tail _ (.tail _ (.head _))

theorem listed_inj {a b : Option Text} (ha : ∀ n, a = some n → IsName n) (hb : ∀ n, b = some n → IsName n)
    (h : a.getD [] = b.getD []) : a = b := by
  cases a with
  | none =>
    cases b with
    | none => rfl
    | some n => exact absurd h.symm (hb n rfl).ne_nil
  | some m =>
    cases b with
    | none => exact absurd h (ha m rfl).ne_nil
    | some n => exact congrArg some h

section

variable {engine : Text} {tables : List Table} (hok : SchemaOk engine tables)

include hok

theorem entryKey_inj {e f : Table × Constraint} (he : e ∈ entries tables) (hf : f ∈ entries tables)
    (h : entryKey engine e = entryKey engine f) :
    e.1.name = f.1.name ∧ e.2.letter engine = f.2.letter engine ∧ e.2.key.listed = f.2.key.listed := by
  obtain ⟨het, hec⟩ := mem_owned.mp he
  obtain ⟨hft, hfc⟩ := mem_owned.mp hf
  have heok := hok.tables_ok e.1 het
  have hfok := hok.tables_ok f.1 hft
  have hletter (c : Constraint) : '\x00' ∉ [c.letter engine] := by
    have hall : ∀ letter ∈ ['P', 'U', 'F', 'R'], '\x00' ∉ [letter] := by decide
    exact hall _ (letter_mem engine c)
  obtain ⟨hname, hrest⟩ := append_nul_inj heok.name_ok.no_nul hfok.name_ok.no_nul h
  obtain ⟨hsame, hlisted⟩ := append_nul_inj (hletter e.2) (hletter f.2) hrest
  exact ⟨hname, List.singleton_inj.mp hsame, listed_inj (heok.keys_ok _ hec).listed_ok (hfok.keys_ok _ hfc).listed_ok hlisted⟩

theorem nodup_tables : tables.Nodup := List.Nodup.of_map _ hok.names_apart

theorem eq_of_name_eq {s t : Table} (hs : s ∈ tables) (ht : t ∈ tables) (h : s.name = t.name) : s = t :=
  List.inj_on_of_nodup_map hok.names_apart hs ht h

theorem nodup_entryKeys : ((entries tables).map (entryKey engine)).Nodup := by
  have hentries : (entries tables).Nodup := by
    unfold entries owned
    rw [List.nodup_flatMap]
    refine ⟨fun t ht ↦ ?_, ?_⟩
    · exact (List.Nodup.of_map _ (hok.tables_ok t ht).keys_apart).map fun c d h ↦ (Prod.ext_iff.mp h).2
    · refine (nodup_tables hok).imp fun hne ↦ ?_
      intro e hs ht
      obtain ⟨c, -, rfl⟩ := List.mem_map.mp hs
      obtain ⟨d, -, hd⟩ := List.mem_map.mp ht
      exact hne (Prod.ext_iff.mp hd).1.symm
  refine List.Nodup.map_on (fun e he f hf h ↦ ?_) hentries
  obtain ⟨hname, hletter, hlisted⟩ := entryKey_inj hok he hf h
  obtain ⟨het, hec⟩ := mem_owned.mp he
  obtain ⟨hft, hfc⟩ := mem_owned.mp hf
  have htable := eq_of_name_eq hok het hft hname
  have hconstraint := List.inj_on_of_nodup_map (hok.tables_ok e.1 het).keys_apart hec (htable ▸ hfc)
    (Prod.ext hletter hlisted)
  exact Prod.ext htable hconstraint

/-- Each row of a constraint says where it belongs. -/
theorem constraintKey_record {e : Table × Constraint} (he : e ∈ entries tables) {r : Row}
    (hr : r ∈ constraintRecords engine e) : constraintKey r = entryKey engine e := by
  obtain ⟨ht, hc⟩ := mem_owned.mp he
  have htable := hok.tables_ok e.1 ht
  have hlisted : trim e.2.key.listed = e.2.key.listed.getD [] := by
    cases hn : e.2.key.listed with
    | none => rfl
    | some n => exact ((htable.keys_ok _ hc).listed_ok n hn).trimmed
  have hletter : trim (some [e.2.letter engine]) = [e.2.letter engine] := by
    have hall : ∀ letter ∈ ['P', 'U', 'F', 'R'], trim (some [letter]) = [letter] := by decide
    exact hall _ (letter_mem engine e.2)
  obtain ⟨row, hrow, rfl⟩ := List.mem_map.mp hr
  obtain ⟨p, -, rfl⟩ := List.mem_map.mp hrow
  obtain ⟨h₁, h₂, h₃, -⟩ := fields_constraint (some e.1.name) e.2.key.listed (some [e.2.letter engine]) (some p.1.2)
    (some (Nat.toDigits 10 p.1.1)) e.2.refTable (e.2.refColumn p.2)
  rw [constraintKey, h₁, h₂, h₃, trim_of_isName htable.name_ok, hlisted, hletter]
  rfl

theorem sorted_constraintRecords {e : Table × Constraint} (he : e ∈ entries tables) :
    (constraintRecords engine e).Pairwise fun a b ↦ position a < position b := by
  obtain ⟨ht, hc⟩ := mem_owned.mp he
  have hkey := (hok.tables_ok e.1 ht).keys_ok _ hc
  have hrank {p : (ℕ × Text) × ℕ} (hp : p ∈ e.2.key.columns.zipIdx) :
      position (recordOf constraintColumns [some e.1.name, e.2.key.listed, some [e.2.letter engine], some p.1.2,
        some (Nat.toDigits 10 p.1.1), e.2.refTable, e.2.refColumn p.2]) = p.1.1 := by
    have hmem : p.1 ∈ e.2.key.columns := List.fst_mem_of_mem_zipIdx hp
    exact position_eq (fields_constraint _ _ _ _ _ _ _).2.2.2.2.1
      (hkey.positioned.2 p.1.1 (List.mem_map_of_mem hmem))
  have hgrow : (e.2.key.columns.zipIdx.map fun p ↦ p.1.1).Pairwise (· < ·) := by
    have h := hkey.positioned.1
    rwa [← List.zipIdx_map_fst 0 e.2.key.columns, List.map_map] at h
  unfold constraintRecords Constraint.rows
  rw [List.map_map, List.pairwise_map]
  rw [List.pairwise_map] at hgrow
  refine hgrow.imp_of_mem fun {p q} hp hq hlt ↦ ?_
  rw [Function.comp_apply, Function.comp_apply, hrank hp, hrank hq]
  exact_mod_cast hlt

theorem columns_records {e : Table × Constraint} (he : e ∈ entries tables) :
    ((constraintRecords engine e).map fun r ↦ trim (field r "column_name")) = e.2.key.columns.map Prod.snd := by
  obtain ⟨ht, hc⟩ := mem_owned.mp he
  have hkey := (hok.tables_ok e.1 ht).keys_ok _ hc
  unfold constraintRecords Constraint.rows
  rw [List.map_map, List.map_map]
  calc _ = e.2.key.columns.zipIdx.map fun p ↦ p.1.2 :=
        List.map_congr_left fun p hp ↦ (hkey.names_ok p.1 (List.fst_mem_of_mem_zipIdx hp)).trimmed
    _ = (e.2.key.columns.zipIdx.map Prod.fst).map Prod.snd := by rw [List.map_map]; rfl
    _ = e.2.key.columns.map Prod.snd := by rw [List.zipIdx_map_fst]

theorem refColumns_records {t : Table} {f : Foreign} (he : (t, Constraint.foreign f) ∈ entries tables) :
    ((constraintRecords engine (t, .foreign f)).map fun r ↦ trim (field r "ref_column")) =
      f.refColumns.getD (List.replicate f.key.columns.length []) := by
  obtain ⟨ht, hc⟩ := mem_owned.mp he
  have hmem : f ∈ t.foreignKeys := by
    simpa [Table.constraints] using hc
  have hf := (hok.tables_ok t ht).foreign_ok f hmem
  have hmap : ((constraintRecords engine (t, .foreign f)).map fun r ↦ trim (field r "ref_column")) =
      f.key.columns.zipIdx.map fun p ↦ trim (f.refColumns.bind (·[p.2]?)) := by
    unfold constraintRecords Constraint.rows
    rw [List.map_map, List.map_map]
    rfl
  rw [hmap]
  cases hrefs : f.refColumns with
  | none =>
    rw [Option.getD_none, List.eq_replicate_iff]
    refine ⟨by simp, fun c hc ↦ ?_⟩
    obtain ⟨p, -, rfl⟩ := List.mem_map.mp hc
    rfl
  | some cs =>
    obtain ⟨hlength, hnames⟩ := hf.columns_ok cs hrefs
    refine List.ext_getElem (by simp [hlength]) fun i hi hi' ↦ ?_
    rw [Option.getD_some] at hi'
    have hget : cs[i]? = some cs[i] := List.getElem?_eq_getElem hi'
    simp only [List.getElem_map, List.getElem_zipIdx, Option.bind_some, Option.getD_some, Nat.zero_add, hget]
    exact (hnames _ (List.getElem_mem hi')).trimmed

/-- However the rows are ordered, the groups are the constraints. -/
theorem groups_constraints {toLowerCase : Text → Text} {columns : List Text} {rows : List (List Cell)}
    (h : Lists toLowerCase constraintColumns (tables.flatMap fun t ↦ t.constraints.flatMap (·.rows engine t.name))
      columns rows) :
    ∃ order : List (Table × Constraint), order.Perm (entries tables) ∧
      groups (records toLowerCase columns rows) constraintKey = order.map (constraintRecords engine) := by
  have hlisting : (tables.flatMap fun t ↦ t.constraints.flatMap (·.rows engine t.name)).map (recordOf constraintColumns) =
      (entries tables).flatMap (constraintRecords engine) := by
    unfold entries owned constraintRecords
    rw [List.map_flatMap, List.flatMap_assoc]
    refine List.flatMap_congr fun t _ ↦ ?_
    rw [List.map_flatMap, List.flatMap_map]
  have hne : ∀ e ∈ entries tables, constraintRecords engine e ≠ [] := by
    intro e he
    obtain ⟨ht, hc⟩ := mem_owned.mp he
    have hcolumns := ((hok.tables_ok e.1 ht).keys_ok _ hc).ne_nil
    simpa [constraintRecords, Constraint.rows] using hcolumns
  exact Grouping.groups_eq constraintKey position (nodup_entryKeys hok) hne
    (fun e he r hr ↦ constraintKey_record hok he hr) (fun e he ↦ sorted_constraintRecords hok he)
    (hlisting ▸ h.records_perm)

/-- A foreign key as its rows have it, with no columns for those left out. -/
def listedForeign (engine : Text) (f : Foreign) : ForeignKeyDef :=
  ⟨shownName engine f.key.listed, f.key.columns.map Prod.snd, f.refTable,
    f.refColumns.getD (List.replicate f.key.columns.length [])⟩

/-- What a constraint adds to its table. -/
def addDef (engine : Text) (c : Constraint) (d : TableDef) : TableDef :=
  match c with
  | .primary k => { d with primaryKey := some (keyDef engine k) }
  | .unique k => { d with uniques := d.uniques ++ [keyDef engine k] }
  | .foreign f => { d with foreignKeys := d.foreignKeys ++ [listedForeign engine f] }

theorem addGroup_records (toLowerCase : Text → Text) (m : List (Text × ℕ)) (defs : List TableDef)
    {e : Table × Constraint} (he : e ∈ entries tables) :
    addGroup toLowerCase m engine defs (constraintRecords engine e) =
      changeNamed toLowerCase m e.1.name (addDef engine e.2) defs := by
  obtain ⟨ht, hc⟩ := mem_owned.mp he
  have htable := hok.tables_ok e.1 ht
  have hcolumns := columns_records hok he
  obtain ⟨p, more, hp⟩ := List.exists_cons_of_ne_nil (htable.keys_ok _ hc).ne_nil
  have hfirst : ∃ rest, constraintRecords engine e = recordOf constraintColumns [some e.1.name, e.2.key.listed,
      some [e.2.letter engine], some p.2, some (Nat.toDigits 10 p.1), e.2.refTable, e.2.refColumn 0] :: rest := by
    unfold constraintRecords Constraint.rows
    rw [hp, List.zipIdx_cons, List.map_cons, List.map_cons]
    exact ⟨_, rfl⟩
  obtain ⟨rest, hrest⟩ := hfirst
  obtain ⟨h₁, h₂, h₃, -, -, h₆, -⟩ := fields_constraint (some e.1.name) e.2.key.listed (some [e.2.letter engine])
    (some p.2) (some (Nat.toDigits 10 p.1)) e.2.refTable (e.2.refColumn 0)
  have hname : (if engineFamily engine = "sqlite".toList ∨ trim e.2.key.listed = [] ∨
      trim e.2.key.listed = "PRIMARY".toList then none else some (trim e.2.key.listed)) =
      shownName engine e.2.key.listed := by
    unfold shownName
    cases hlisted : e.2.key.listed with
    | none => rw [if_pos (.inr (.inl rfl)), ite_self]
    | some n =>
      have hn := (htable.keys_ok _ hc).listed_ok n hlisted
      rw [trim_of_isName hn]
      exact if_congr (or_congr Iff.rfl ⟨fun h ↦ congrArg some (h.resolve_left hn.ne_nil),
        fun h ↦ .inr (Option.some.inj h)⟩) rfl rfl
  have hchange : addConstraint engine (constraintRecords engine e) (recordOf constraintColumns [some e.1.name,
      e.2.key.listed, some [e.2.letter engine], some p.2, some (Nat.toDigits 10 p.1), e.2.refTable, e.2.refColumn 0]) =
      addDef engine e.2 := by
    ext d : 1
    unfold addConstraint
    dsimp only
    rw [h₂, h₃, h₆, hname, hcolumns]
    obtain ⟨t, c⟩ := e
    cases c with
    | primary k => rfl
    | unique k => rfl
    | foreign f =>
      have hmem : f ∈ t.foreignKeys := by
        simpa [Table.constraints] using hc
      have hreads : trim (Constraint.foreign f).refTable = f.refTable := (htable.foreign_ok f hmem).table_ok.trimmed
      have hkind : jsUpper (trim (some [(Constraint.foreign f).letter engine])) = ['F'] ∨
          jsUpper (trim (some [(Constraint.foreign f).letter engine])) = ['R'] := by
        unfold Constraint.letter
        dsimp only
        split_ifs
        · exact .inr rfl
        · exact .inl rfl
      have hother : ∀ kind ∈ [['F'], ['R']], kind ≠ ['P'] ∧ kind ≠ ['U'] := by decide
      obtain ⟨hprimary, hunique⟩ := hother (jsUpper (trim (some [(Constraint.foreign f).letter engine]))) (by
        simpa using hkind)
      rw [if_neg hprimary, if_neg hunique, if_pos hkind, hreads, refColumns_records hok he]
      rfl
  rw [hrest, addGroup, h₁, trim_of_isName htable.name_ok, ← hrest, hchange]

end

/-! ## Tables by name -/

section

variable (toLowerCase : Text → Text)

theorem byName_concat (names : List Text) (n : Text) :
    byName toLowerCase (names ++ [n]) = Records.put (toLowerCase n) names.length (byName toLowerCase names) := by
  unfold byName
  rw [List.zipIdx_append, List.foldl_append, Nat.zero_add]
  rfl

theorem lookup_byName_concat (names : List Text) (n k : Text) :
    (byName toLowerCase (names ++ [n])).lookup k =
      if toLowerCase n = k then some names.length else (byName toLowerCase names).lookup k := by
  rw [byName_concat]
  by_cases h : toLowerCase n = k
  · rw [if_pos h, ← h, Records.lookup_put_self]
  · rw [if_neg h, Records.lookup_put_of_ne (Ne.symm h)]

/-- The last table of a name in lower case. -/
def lastOf (tables : List Table) (k : Text) : Option Table := tables.reverse.find? fun t ↦ toLowerCase t.name = k

theorem lastOf_concat (tables : List Table) (t : Table) (k : Text) :
    lastOf toLowerCase (tables ++ [t]) k = if toLowerCase t.name = k then some t else lastOf toLowerCase tables k := by
  unfold lastOf
  rw [List.reverse_append, List.reverse_singleton, List.singleton_append, List.find?_cons]
  by_cases h : toLowerCase t.name = k
  · rw [if_pos h, decide_eq_true h]
  · rw [if_neg h, decide_eq_false h]

theorem of_lastOf {tables : List Table} {k : Text} {s : Table} (h : lastOf toLowerCase tables k = some s) :
    s ∈ tables ∧ toLowerCase s.name = k := by
  have hname := List.find?_some (p := fun t : Table ↦ decide (toLowerCase t.name = k)) h
  exact ⟨List.mem_reverse.mp (List.mem_of_find?_eq_some h), of_decide_eq_true hname⟩

/-- A look-up by name finds the place of the last table of the name. -/
theorem lookup_byName (tables : List Table) (k : Text) (i : ℕ) (hnodup : tables.Nodup) :
    (byName toLowerCase (tables.map Table.name)).lookup k = some i ↔
      ∃ t, lastOf toLowerCase tables k = some t ∧ tables[i]? = some t := by
  induction tables using List.reverseRecOn with
  | nil => simp [byName, lastOf]
  | append_singleton tables t ih =>
    rw [List.nodup_append] at hnodup
    rw [List.map_append, List.map_singleton, lookup_byName_concat, lastOf_concat, List.length_map]
    by_cases h : toLowerCase t.name = k
    · rw [if_pos h, if_pos h]
      constructor
      · rintro hi
        cases hi
        exact ⟨t, rfl, List.getElem?_concat_length⟩
      · rintro ⟨s, hs, hget⟩
        cases hs
        obtain hlt | hge := lt_or_ge i tables.length
        · rw [List.getElem?_append_left hlt] at hget
          exact absurd rfl (hnodup.2.2 t (List.mem_of_getElem? hget) t (List.mem_singleton_self t))
        · have hi : i < (tables ++ [t]).length := List.getElem?_eq_some_iff.mp hget |>.1
          rw [List.length_append, List.length_singleton] at hi
          exact congrArg some (by omega)
    · rw [if_neg h, if_neg h, ih hnodup.1]
      refine exists_congr fun s ↦ and_congr_right fun hs ↦ ?_
      obtain hlt | hge := lt_or_ge i tables.length
      · rw [List.getElem?_append_left hlt]
      · refine iff_of_false (fun hget ↦ ?_) fun hget ↦ ?_
        · exact absurd (List.getElem?_eq_some_iff.mp hget).1 (by omega)
        · have hmem := List.mem_of_getElem? (List.getElem?_append_right hge ▸ hget)
          rw [List.mem_singleton] at hmem
          exact h (hmem ▸ (of_lastOf toLowerCase hs).2)

theorem exists_lastOf {tables : List Table} {t : Table} (ht : t ∈ tables) :
    ∃ u, lastOf toLowerCase tables (toLowerCase t.name) = some u := by
  have hfound : (lastOf toLowerCase tables (toLowerCase t.name)).isSome = true := by
    unfold lastOf
    rw [List.find?_isSome]
    exact ⟨t, List.mem_reverse.mpr ht, decide_eq_true rfl⟩
  exact Option.isSome_iff_exists.mp hfound

end

/-! ## Shares -/

section

variable (engine : Text)

def primaryOf : Constraint → Option KeyDef
  | .primary k => some (keyDef engine k)
  | _ => none

def uniqueOf : Constraint → Option KeyDef
  | .unique k => some (keyDef engine k)
  | _ => none

def foreignOf : Constraint → Option ForeignKeyDef
  | .foreign f => some (listedForeign engine f)
  | _ => none

/-- What constraints one after another make of a table: the last primary key stays. -/
theorem foldl_addDef (cs : List Constraint) (d : TableDef) :
    cs.foldl (fun d c ↦ addDef engine c d) d =
      { d with
        primaryKey := ((cs.filterMap (primaryOf engine)).getLast?).or d.primaryKey
        uniques := d.uniques ++ cs.filterMap (uniqueOf engine)
        foreignKeys := d.foreignKeys ++ cs.filterMap (foreignOf engine) } := by
  induction cs using List.reverseRecOn with
  | nil => simp
  | append_singleton cs c ih =>
    rw [List.foldl_append, ih]
    cases c <;> simp [addDef, primaryOf, uniqueOf, foreignOf, List.filterMap_append]

end

/-! ## What a place gets -/

section

variable (toLowerCase : Text → Text) (tables : List Table)

/-- What all tables of a name in lower case have, for the last of them. -/
def gathered {β : Type} (f : Table → List β) (t : Table) : List β :=
  tables.flatMap fun s ↦ if lastOf toLowerCase tables (toLowerCase s.name) = some t then f s else []

theorem gathered_perm {β : Type} {f : Table → List β} {order : List (Table × β)} (h : order.Perm (owned f tables))
    (t : Table) : ((order.filter fun e ↦ lastOf toLowerCase tables (toLowerCase e.1.name) = some t).map Prod.snd).Perm
      (gathered toLowerCase tables f t) := by
  refine ((h.filter _).map _).trans (List.Perm.of_eq ?_)
  unfold owned gathered
  rw [List.filter_flatMap, List.map_flatMap]
  refine List.flatMap_congr fun s _ ↦ ?_
  rw [List.filter_map, List.map_map]
  by_cases hs : lastOf toLowerCase tables (toLowerCase s.name) = some t
  · have hkeep : (f s).filter ((fun e : Table × β ↦
        decide (lastOf toLowerCase tables (toLowerCase e.1.name) = some t)) ∘ fun b ↦ (s, b)) = f s :=
      List.filter_eq_self.mpr fun b _ ↦ decide_eq_true hs
    rw [if_pos hs, hkeep]
    exact List.map_id _
  · have hdrop : (f s).filter ((fun e : Table × β ↦
        decide (lastOf toLowerCase tables (toLowerCase e.1.name) = some t)) ∘ fun b ↦ (s, b)) = [] :=
      List.filter_eq_nil_iff.mpr fun b _ ↦ by simpa using hs
    rw [if_neg hs, hdrop]
    rfl

theorem filterMap_gathered {β γ : Type} (g : β → Option γ) (f : Table → List β) (t : Table) :
    (gathered toLowerCase tables f t).filterMap g = gathered toLowerCase tables (fun s ↦ (f s).filterMap g) t := by
  unfold gathered
  rw [List.filterMap_flatMap]
  refine List.flatMap_congr fun s _ ↦ ?_
  split_ifs <;> rfl

/-- After changes to named tables, a place has those of the tables whose last it is. -/
theorem getElem?_foldl_changeNamed {β : Type} (hnodup : tables.Nodup) (change : β → TableDef → TableDef)
    (order : List (Table × β)) (defs : List TableDef) {t : Table} {j : ℕ} (hj : tables[j]? = some t) :
    (order.foldl (fun defs e ↦
      changeNamed toLowerCase (byName toLowerCase (tables.map Table.name)) e.1.name (change e.2) defs) defs)[j]? =
      (defs[j]?).map fun d ↦
        ((order.filter fun e ↦ lastOf toLowerCase tables (toLowerCase e.1.name) = some t).map Prod.snd).foldl
          (fun d b ↦ change b d) d := by
  have hplace (e : Table × β) : (byName toLowerCase (tables.map Table.name)).lookup (toLowerCase e.1.name) = some j ↔
      lastOf toLowerCase tables (toLowerCase e.1.name) = some t := by
    rw [lookup_byName toLowerCase tables _ j hnodup]
    constructor
    · rintro ⟨s, hs, hget⟩
      cases hj.symm.trans hget
      exact hs
    · exact fun h ↦ ⟨t, h, hj⟩
  have hsteps := Grouping.getElem?_foldl_modify
    (fun e : Table × β ↦ (byName toLowerCase (tables.map Table.name)).lookup (toLowerCase e.1.name))
    (fun e ↦ change e.2) order defs j
  simp only [hplace] at hsteps
  simp only [List.foldl_map]
  exact hsteps

/-- The values of the map are the last tables. -/
theorem mem_values_byName (hnodup : tables.Nodup) {t : Table} {j : ℕ} (hj : tables[j]? = some t) :
    j ∈ (byName toLowerCase (tables.map Table.name)).map Prod.snd ↔
      lastOf toLowerCase tables (toLowerCase t.name) = some t := by
  have hkeys : ((byName toLowerCase (tables.map Table.name)).map Prod.fst).Nodup := by
    generalize tables.map Table.name = names
    induction names using List.reverseRecOn with
    | nil => exact List.nodup_nil
    | append_singleton names n ih =>
      rw [byName_concat]
      exact Records.nodup_put ih _ _
  rw [List.mem_map]
  constructor
  · rintro ⟨⟨k, i⟩, hmem, rfl⟩
    obtain ⟨s, hs, hget⟩ := (lookup_byName toLowerCase tables k i hnodup).mp
      ((Records.lookup_eq_some_iff hkeys).mpr hmem)
    cases hj.symm.trans hget
    rwa [(of_lastOf toLowerCase hs).2]
  · intro h
    have hlookup := (lookup_byName toLowerCase tables (toLowerCase t.name) j hnodup).mpr ⟨t, h, hj⟩
    exact ⟨_, (Records.lookup_eq_some_iff hkeys).mp hlookup, rfl⟩

theorem filterMap_constraints (engine : Text) (t : Table) :
    t.constraints.filterMap (primaryOf engine) = t.primaryKey.toList.map (keyDef engine) ∧
      t.constraints.filterMap (uniqueOf engine) = t.uniques.map (keyDef engine) := by
  have hnone {β γ : Type} (l : List β) : l.filterMap (fun _ ↦ (none : Option γ)) = [] := by simp
  unfold Table.constraints
  simp only [List.filterMap_append, List.filterMap_map]
  refine ⟨?_, ?_⟩
  · rw [show primaryOf engine ∘ Constraint.primary = some ∘ keyDef engine from rfl,
      show primaryOf engine ∘ Constraint.unique = fun _ ↦ none from rfl,
      show primaryOf engine ∘ Constraint.foreign = fun _ ↦ none from rfl, hnone, hnone, List.filterMap_eq_map,
      List.append_nil, List.append_nil]
  · rw [show uniqueOf engine ∘ Constraint.primary = fun _ ↦ none from rfl,
      show uniqueOf engine ∘ Constraint.unique = some ∘ keyDef engine from rfl,
      show uniqueOf engine ∘ Constraint.foreign = fun _ ↦ none from rfl, hnone, hnone, List.filterMap_eq_map,
      List.append_nil, List.nil_append]

theorem filterMap_foreignOf (engine : Text) (t : Table) :
    t.constraints.filterMap (foreignOf engine) = t.foreignKeys.map (listedForeign engine) := by
  have hnone {β γ : Type} (l : List β) : l.filterMap (fun _ ↦ (none : Option γ)) = [] := by simp
  unfold Table.constraints
  simp only [List.filterMap_append, List.filterMap_map]
  rw [show foreignOf engine ∘ Constraint.primary = fun _ ↦ none from rfl,
    show foreignOf engine ∘ Constraint.unique = fun _ ↦ none from rfl,
    show foreignOf engine ∘ Constraint.foreign = some ∘ listedForeign engine from rfl, hnone, hnone,
    List.filterMap_eq_map, List.nil_append, List.nil_append]

end

/-! ## Constraints -/

section

variable (toLowerCase : Text → Text) (engine : Text) (tables : List Table)

/-- The constraints that a table gets, in an order of all. -/
def share {β : Type} (order : List (Table × β)) (t : Table) : List β :=
  (order.filter fun e ↦ lastOf toLowerCase tables (toLowerCase e.1.name) = some t).map Prod.snd

def sharedKey (order : List (Table × Constraint)) (t : Table) : Option KeyDef :=
  ((share toLowerCase tables order t).filterMap (primaryOf engine)).getLast?

/-- The columns of the parent's primary key where some are left out, the parent being the last of its name. -/
def fillShared (order : List (Table × Constraint)) (fk : ForeignKeyDef) : ForeignKeyDef :=
  if [] ∈ fk.refColumns then
    match (lastOf toLowerCase tables (toLowerCase fk.refTable)).bind (sharedKey toLowerCase engine tables order) with
    | some pk => if pk.columns.length = fk.columns.length then { fk with refColumns := pk.columns } else fk
    | none => fk
  else fk

def startOf (t : Table) : TableDef := startTable t.name t.columns t.flagged

/-- A table behind the constraints, when it is the last of its name. -/
def constrained (order : List (Table × Constraint)) (t : Table) : TableDef :=
  if lastOf toLowerCase tables (toLowerCase t.name) = some t then
    let cs := share toLowerCase tables order t
    { startOf t with
      primaryKey := sharedKey toLowerCase engine tables order t
      uniques := cs.filterMap (uniqueOf engine)
      foreignKeys := (cs.filterMap (foreignOf engine)).map (fillShared toLowerCase engine tables order) }
  else startOf t

variable {toLowerCase engine tables}

theorem getElem?_forValues {defs : List TableDef} (hnodup : tables.Nodup) (change : TableDef → TableDef) {t : Table}
    {j : ℕ} (hj : tables[j]? = some t) :
    (forValues (byName toLowerCase (tables.map Table.name)) change defs)[j]? =
      (defs[j]?).map fun d ↦ if lastOf toLowerCase tables (toLowerCase t.name) = some t then change d else d := by
  unfold forValues
  rw [List.getElem?_mapIdx]
  simp only [mem_values_byName toLowerCase tables hnodup hj]

theorem length_foldl_changeNamed {β : Type} (m : List (Text × ℕ)) (change : β → TableDef → TableDef)
    (order : List (Table × β)) (defs : List TableDef) :
    (order.foldl (fun defs e ↦ changeNamed toLowerCase m e.1.name (change e.2) defs) defs).length = defs.length := by
  induction order generalizing defs with
  | nil => rfl
  | cons e order ih =>
    rw [List.foldl_cons, ih]
    unfold changeNamed
    split
    · rfl
    · exact List.length_modify _ _ _

theorem share_of_not_last {β : Type} (order : List (Table × β)) {t : Table}
    (h : lastOf toLowerCase tables (toLowerCase t.name) ≠ some t) : share toLowerCase tables order t = [] := by
  have hfilter : order.filter (fun e ↦ lastOf toLowerCase tables (toLowerCase e.1.name) = some t) = [] := by
    rw [List.filter_eq_nil_iff]
    intro e _ he
    have hlast := of_decide_eq_true he
    exact h (by rw [(of_lastOf toLowerCase hlast).2, hlast])
  rw [share, hfilter]
  rfl

/-- A look-up by name that goes on to the table. -/
theorem bind_lookup {β : Type} (hnodup : tables.Nodup) {k : Text} {atPlace : ℕ → Option β} {ofTable : Table → Option β}
    (h : ∀ {i u}, tables[i]? = some u → lastOf toLowerCase tables (toLowerCase u.name) = some u → atPlace i = ofTable u) :
    ((byName toLowerCase (tables.map Table.name)).lookup k).bind atPlace = (lastOf toLowerCase tables k).bind ofTable := by
  cases hlast : lastOf toLowerCase tables k with
  | none =>
    cases hlookup : (byName toLowerCase (tables.map Table.name)).lookup k with
    | none => rfl
    | some i =>
      obtain ⟨u, hu, -⟩ := (lookup_byName toLowerCase tables k i hnodup).mp hlookup
      rw [hlast] at hu
      cases hu
  | some u =>
    obtain ⟨hmem, hname⟩ := of_lastOf toLowerCase hlast
    obtain ⟨i, hi⟩ := List.mem_iff_getElem?.mp hmem
    rw [(lookup_byName toLowerCase tables k i hnodup).mpr ⟨u, hlast, hi⟩]
    exact h hi (by rw [hname, hlast])

theorem applyConstraints_eq (hok : SchemaOk engine tables) {columns : List Text} {rows : List (List Cell)}
    (h : Lists toLowerCase constraintColumns (tables.flatMap fun t ↦ t.constraints.flatMap (·.rows engine t.name))
      columns rows) :
    ∃ order : List (Table × Constraint), order.Perm (entries tables) ∧
      groups (records toLowerCase columns rows) constraintKey = order.map (constraintRecords engine) ∧
      applyConstraints toLowerCase (tables.map startOf) engine columns rows =
        tables.map (constrained toLowerCase engine tables order) := by
  obtain ⟨order, hperm, hgroups⟩ := groups_constraints hok h
  refine ⟨order, hperm, hgroups, ?_⟩
  have hnodup := nodup_tables hok
  have hnames : (tables.map startOf).map (·.name) = tables.map Table.name := List.map_map
  have hfold (defs : List TableDef) (m : List (Text × ℕ)) :
      (order.map (constraintRecords engine)).foldl (addGroup toLowerCase m engine) defs =
        order.foldl (fun defs e ↦ changeNamed toLowerCase m e.1.name (addDef engine e.2) defs) defs := by
    rw [List.foldl_map]
    exact List.foldl_ext _ _ _ fun defs e he ↦ addGroup_records hok toLowerCase m defs (hperm.subset he)
  unfold applyConstraints
  dsimp only
  rw [hgroups, hnames, hfold]
  generalize hkeyed : order.foldl (fun defs e ↦ changeNamed toLowerCase (byName toLowerCase (tables.map Table.name))
    e.1.name (addDef engine e.2) defs) _ = keyed
  have hget {t : Table} {j : ℕ} (hj : tables[j]? = some t) : keyed[j]? = some
      ((share toLowerCase tables order t).foldl (fun d c ↦ addDef engine c d)
        (if lastOf toLowerCase tables (toLowerCase t.name) = some t then { startOf t with primaryKey := none }
          else startOf t)) := by
    rw [← hkeyed, getElem?_foldl_changeNamed toLowerCase tables hnodup (addDef engine) order _ hj,
      getElem?_forValues hnodup _ hj, List.getElem?_map, hj]
    rfl
  have hkey {u : Table} {i : ℕ} (hi : tables[i]? = some u) (hu : lastOf toLowerCase tables (toLowerCase u.name) = some u) :
      (keyed[i]?).bind (·.primaryKey) = sharedKey toLowerCase engine tables order u := by
    rw [hget hi, if_pos hu, foldl_addDef, Option.bind_some, Option.or_none]
    rfl
  have hfill : fillReference toLowerCase (byName toLowerCase (tables.map Table.name)) keyed =
      fillShared toLowerCase engine tables order := by
    funext fk
    unfold fillReference fillShared
    rw [bind_lookup hnodup fun {i u} hi hu ↦ hkey hi hu]
  refine List.ext_getElem? fun j ↦ ?_
  rw [List.getElem?_map]
  cases hj : tables[j]? with
  | none =>
    have hlength : keyed.length = tables.length := by
      rw [← hkeyed, length_foldl_changeNamed]
      simp [forValues]
    rw [Option.map_none, List.getElem?_eq_none_iff, forValues, List.length_mapIdx, hlength]
    exact List.getElem?_eq_none_iff.mp hj
  | some t =>
    rw [getElem?_forValues hnodup _ hj, hget hj, hfill, Option.map_some, Option.map_some, constrained, foldl_addDef]
    split_ifs with hlast
    · simp [startOf, startTable, sharedKey]
    · rw [share_of_not_last order hlast]
      simp

/-! ## Checks -/

/-- Changes to named tables, table by table. -/
theorem foldl_changeNamed_map {β : Type} (hnodup : tables.Nodup) (change : β → TableDef → TableDef)
    (order : List (Table × β)) (g : Table → TableDef) :
    order.foldl (fun defs e ↦
      changeNamed toLowerCase (byName toLowerCase (tables.map Table.name)) e.1.name (change e.2) defs) (tables.map g) =
      tables.map fun t ↦ (share toLowerCase tables order t).foldl (fun d b ↦ change b d) (g t) := by
  refine List.ext_getElem? fun j ↦ ?_
  rw [List.getElem?_map]
  cases hj : tables[j]? with
  | none =>
    rw [Option.map_none, List.getElem?_eq_none_iff, length_foldl_changeNamed, List.length_map]
    exact List.getElem?_eq_none_iff.mp hj
  | some t =>
    rw [getElem?_foldl_changeNamed toLowerCase tables hnodup change order _ hj, List.getElem?_map, hj]
    rfl

/-- A check as it is read. -/
def readCheck (engine : Text) (c : Check) : CheckDef :=
  ⟨c.listed, if engineFamily engine = "postgres".toList then c.expr else stripCheck c.expr⟩

theorem ends_of_jsTrim {text : Text} (h : jsTrim text = text) : jsTrimStart text = text ∧ jsTrimEnd text = text := by
  have hstart : jsTrimStart text = text := by
    have hsuffix : jsTrimStart text <:+ text := List.dropWhile_suffix _
    have hprefix : jsTrim text <+: jsTrimStart text := List.rdropWhile_prefix _ _
    have hle := hprefix.length_le
    rw [h] at hle
    exact hsuffix.eq_of_length (le_antisymm hsuffix.length_le hle)
  have hend : jsTrimEnd (jsTrimStart text) = text := h
  rw [hstart] at hend
  exact ⟨hstart, hend⟩

theorem stripCheck_keyword {expr : Text} (htrim : jsTrim expr = expr) : stripCheck ("CHECK ".toList ++ expr) = expr := by
  have hstart : expr.dropWhile isJsSpace = expr := (ends_of_jsTrim htrim).1
  calc stripCheck ("CHECK ".toList ++ expr)
    _ = (' ' :: expr).dropWhile isJsSpace := rfl
    _ = expr.dropWhile isJsSpace := List.dropWhile_cons_of_pos (by decide)
    _ = expr := hstart

theorem addCheck_record (hok : SchemaOk engine tables) (m : List (Text × ℕ)) (defs : List TableDef)
    {e : Table × Check} (he : e ∈ owned Table.checks tables) :
    addCheck toLowerCase m defs (recordOf checkColumns (e.2.row engine e.1.name)) =
      changeNamed toLowerCase m e.1.name (fun d ↦ { d with checks := d.checks ++ [readCheck engine e.2] }) defs := by
  obtain ⟨ht, hc⟩ := mem_owned.mp he
  have htable := hok.tables_ok e.1 ht
  have hcheck := htable.checks_ok e.2 hc
  obtain ⟨h₁, h₂, h₃⟩ := fields_check (some e.1.name) e.2.listed
    (some (if engineFamily engine = "postgres".toList then "CHECK ".toList ++ e.2.expr else e.2.expr))
  have hname : (if trim e.2.listed = [] then none else some (trim e.2.listed)) = e.2.listed := by
    cases hlisted : e.2.listed with
    | none => rfl
    | some n =>
      have hn := hcheck.listed_ok n hlisted
      rw [trim_of_isName hn, if_neg hn.ne_nil]
  have hexpr : stripCheck (trim (some (if engineFamily engine = "postgres".toList then "CHECK ".toList ++ e.2.expr
      else e.2.expr))) = if engineFamily engine = "postgres".toList then e.2.expr else stripCheck e.2.expr := by
    unfold trim
    split_ifs with hengine
    · have htrim : jsTrim ("CHECK ".toList ++ e.2.expr) = "CHECK ".toList ++ e.2.expr := by
        refine jsTrim_of_ends (fun c hc ↦ Option.some.inj hc ▸ (by decide)) fun c hc ↦ ?_
        rw [List.getLast?_append_of_ne_nil _ hcheck.ne_nil] at hc
        have hlast := List.rdropWhile_eq_self_iff.mp (ends_of_jsTrim hcheck.trimmed).2 hcheck.ne_nil
        rw [List.getLast?_eq_getLast_of_ne_nil hcheck.ne_nil] at hc
        exact Bool.not_eq_true _ ▸ Option.some.inj hc ▸ hlast
      rw [Option.getD_some, htrim, stripCheck_keyword hcheck.trimmed]
    · rw [Option.getD_some, hcheck.trimmed]
  unfold addCheck Check.row
  dsimp only
  rw [h₁, h₂, h₃, trim_of_isName htable.name_ok, hname, hexpr]
  rfl

theorem foldl_checks (cs : List Check) (d : TableDef) :
    cs.foldl (fun d c ↦ { d with checks := d.checks ++ [readCheck engine c] }) d =
      { d with checks := d.checks ++ cs.map (readCheck engine) } := by
  induction cs generalizing d with
  | nil => simp
  | cons c cs ih => rw [List.foldl_cons, ih, List.map_cons, List.append_assoc, List.singleton_append]

theorem applyChecks_eq (hok : SchemaOk engine tables) {columns : List Text} {rows : List (List Cell)}
    (h : Lists toLowerCase checkColumns (tables.flatMap fun t ↦ t.checks.map (·.row engine t.name)) columns rows)
    {g : Table → TableDef} (hg : ∀ t, (g t).name = t.name) :
    ∃ order : List (Table × Check), order.Perm (owned Table.checks tables) ∧
      applyChecks toLowerCase (tables.map g) columns rows = tables.map fun t ↦
        { g t with checks := (g t).checks ++ (share toLowerCase tables order t).map (readCheck engine) } := by
  have hlisting : (tables.flatMap fun t ↦ t.checks.map (·.row engine t.name)).map (recordOf checkColumns) =
      (owned Table.checks tables).map fun e ↦ recordOf checkColumns (e.2.row engine e.1.name) := by
    unfold owned
    rw [List.map_flatMap, List.map_flatMap]
    refine List.flatMap_congr fun t _ ↦ ?_
    rw [List.map_map, List.map_map]
    rfl
  obtain ⟨order, hmap, hperm⟩ := (congrFun₂ (List.eq_map_comp_perm fun e : Table × Check ↦
    recordOf checkColumns (e.2.row engine e.1.name)) _ _).mpr (hlisting ▸ h.records_perm)
  have hnames : (tables.map g).map (·.name) = tables.map Table.name := by
    rw [List.map_map]
    exact List.map_congr_left fun t _ ↦ hg t
  refine ⟨order, hperm, ?_⟩
  unfold applyChecks
  dsimp only
  rw [hmap, hnames, List.foldl_map,
    List.foldl_ext _ _ _ fun defs e he ↦ addCheck_record hok _ defs (hperm.subset he),
    foldl_changeNamed_map (nodup_tables hok)
      (fun c d ↦ { d with checks := d.checks ++ [readCheck engine c] }) order g]
  exact List.map_congr_left fun t _ ↦ foldl_checks _ _

/-! ## Indexes -/

def indexRecords (e : Table × Index) : List Row := (e.2.rows e.1.name).map (recordOf indexColumns)

def indexEntryKey (e : Table × Index) : Text := e.1.name ++ '\x00' :: e.2.name

section

variable (hok : SchemaOk engine tables)

include hok

theorem fields_of_mem_indexRecords {e : Table × Index} (he : e ∈ owned Table.indexes tables) {r : Row}
    (hr : r ∈ indexRecords e) : trim (field r "table_name") = e.1.name ∧ trim (field r "index_name") = e.2.name ∧
      (trim (field r "is_unique") = ['1'] ↔ e.2.unique = true) := by
  obtain ⟨ht, hi⟩ := mem_owned.mp he
  have htable := hok.tables_ok e.1 ht
  have hflag : trim (flag e.2.unique) = ['1'] ↔ e.2.unique = true := by
    cases e.2.unique <;> decide
  obtain ⟨row, hrow, rfl⟩ := List.mem_map.mp hr
  obtain ⟨p, -, rfl⟩ := List.mem_map.mp hrow
  obtain ⟨h₁, h₂, h₃, -⟩ := fields_index (some e.1.name) (some e.2.name) (flag e.2.unique) p.column
    (some (Nat.toDigits 10 p.position)) (flag p.special)
  rw [h₁, h₂, h₃]
  exact ⟨htable.name_ok.trimmed, (htable.indexes_ok e.2 hi).name_ok.trimmed, hflag⟩

theorem nodup_indexKeys : ((owned Table.indexes tables).map indexEntryKey).Nodup := by
  have hentries : (owned Table.indexes tables).Nodup := by
    unfold owned
    rw [List.nodup_flatMap]
    refine ⟨fun t ht ↦ ?_, ?_⟩
    · exact (List.Nodup.of_map _ (hok.tables_ok t ht).indexes_apart).map fun c d h ↦ (Prod.ext_iff.mp h).2
    · refine (nodup_tables hok).imp fun hne ↦ ?_
      intro e hs ht
      obtain ⟨c, -, rfl⟩ := List.mem_map.mp hs
      obtain ⟨d, -, hd⟩ := List.mem_map.mp ht
      exact hne (Prod.ext_iff.mp hd).1.symm
  refine List.Nodup.map_on (fun e he f hf h ↦ ?_) hentries
  obtain ⟨het, hei⟩ := mem_owned.mp he
  obtain ⟨hft, hfi⟩ := mem_owned.mp hf
  obtain ⟨hname, hindex⟩ := append_nul_inj (hok.tables_ok e.1 het).name_ok.no_nul
    (hok.tables_ok f.1 hft).name_ok.no_nul h
  have htable := eq_of_name_eq hok het hft hname
  exact Prod.ext htable (List.inj_on_of_nodup_map (hok.tables_ok e.1 het).indexes_apart hei (htable ▸ hfi) hindex)

theorem sorted_indexRecords {e : Table × Index} (he : e ∈ owned Table.indexes tables) :
    (indexRecords e).Pairwise fun a b ↦ position a < position b := by
  obtain ⟨ht, hi⟩ := mem_owned.mp he
  have hindex := (hok.tables_ok e.1 ht).indexes_ok e.2 hi
  have hrank {p : Part} (hp : p ∈ e.2.parts) : position (recordOf indexColumns [some e.1.name, some e.2.name,
      flag e.2.unique, p.column, some (Nat.toDigits 10 p.position), flag p.special]) = p.position :=
    position_eq (fields_index _ _ _ _ _ _).2.2.2.2.1 (hindex.positioned.2 p.position (List.mem_map_of_mem hp))
  have hgrow := hindex.positioned.1
  unfold indexRecords Index.rows
  rw [List.map_map, List.pairwise_map]
  rw [List.pairwise_map] at hgrow
  refine hgrow.imp_of_mem fun {p q} hp hq hlt ↦ ?_
  rw [Function.comp_apply, Function.comp_apply, hrank hp, hrank hq]
  exact_mod_cast hlt

theorem groups_indexes {columns : List Text} {rows : List (List Cell)}
    (h : Lists toLowerCase indexColumns (tables.flatMap fun t ↦ t.indexes.flatMap (·.rows t.name)) columns rows) :
    ∃ order : List (Table × Index), order.Perm (owned Table.indexes tables) ∧
      groups (records toLowerCase columns rows) indexKey = order.map indexRecords := by
  have hlisting : (tables.flatMap fun t ↦ t.indexes.flatMap (·.rows t.name)).map (recordOf indexColumns) =
      (owned Table.indexes tables).flatMap indexRecords := by
    unfold owned indexRecords
    rw [List.map_flatMap, List.flatMap_assoc]
    refine List.flatMap_congr fun t _ ↦ ?_
    rw [List.map_flatMap, List.flatMap_map]
  have hne : ∀ e ∈ owned Table.indexes tables, indexRecords e ≠ [] := by
    intro e he
    obtain ⟨ht, hi⟩ := mem_owned.mp he
    have hparts := ((hok.tables_ok e.1 ht).indexes_ok e.2 hi).ne_nil
    simpa [indexRecords, Index.rows] using hparts
  refine Grouping.groups_eq indexKey position (nodup_indexKeys hok) hne (fun e he r hr ↦ ?_)
    (fun e he ↦ sorted_indexRecords hok he) (hlisting ▸ h.records_perm)
  obtain ⟨htable, hname, -⟩ := fields_of_mem_indexRecords hok he hr
  rw [indexKey, htable, hname]
  rfl

/-- What an index adds to its table. -/
def addIndexDef (i : Index) (d : TableDef) : TableDef :=
  if i.isSpecial then d else { d with indexes := d.indexes ++ [indexDef i] }

end

/-- What an index adds to those left out, under the name of the last table of its table's name. -/
def specialOf (toLowerCase : Text → Text) (tables : List Table) (e : Table × Index) : List (Text × Text) :=
  if e.2.isSpecial then (lastOf toLowerCase tables (toLowerCase e.1.name)).toList.map fun u ↦ (u.name, e.2.name)
  else []

theorem any_special (hok : SchemaOk engine tables) {e : Table × Index} (he : e ∈ owned Table.indexes tables) :
    ((indexRecords e).any fun r ↦ trim (field r "special") = ['1'] || trim (field r "column_name") = []) =
      e.2.isSpecial := by
  obtain ⟨ht, hi⟩ := mem_owned.mp he
  have hindex := (hok.tables_ok e.1 ht).indexes_ok e.2 hi
  have hflag (b : Bool) : decide (trim (flag b) = ['1']) = b := by
    cases b <;> decide
  have hcolumn {p : Part} (hp : p ∈ e.2.parts) : decide (trim p.column = []) = p.column.isNone := by
    cases hc : p.column with
    | none => rfl
    | some c =>
      have hname := hindex.names_ok p hp c hc
      rw [trim_of_isName hname, decide_eq_false hname.ne_nil]
      rfl
  unfold indexRecords Index.rows Index.isSpecial
  rw [List.map_map, List.any_map, Bool.eq_iff_iff, List.any_eq_true, List.any_eq_true]
  refine exists_congr fun p ↦ and_congr_right fun hp ↦ ?_
  obtain ⟨-, -, -, h₄, -, h₆⟩ := fields_index (some e.1.name) (some e.2.name) (flag e.2.unique) p.column
    (some (Nat.toDigits 10 p.position)) (flag p.special)
  rw [Function.comp_apply, Function.comp_apply, h₄, h₆, hflag, hcolumn hp]

theorem columns_indexRecords (hok : SchemaOk engine tables) {e : Table × Index} (he : e ∈ owned Table.indexes tables) :
    ((indexRecords e).map fun r ↦ trim (field r "column_name")) = e.2.parts.map fun p ↦ p.column.getD [] := by
  obtain ⟨ht, hi⟩ := mem_owned.mp he
  have hindex := (hok.tables_ok e.1 ht).indexes_ok e.2 hi
  unfold indexRecords Index.rows
  rw [List.map_map, List.map_map]
  refine List.map_congr_left fun p hp ↦ ?_
  have hfield := (fields_index (some e.1.name) (some e.2.name) (flag e.2.unique) p.column
    (some (Nat.toDigits 10 p.position)) (flag p.special)).2.2.2.1
  rw [Function.comp_apply, Function.comp_apply, hfield]
  cases hc : p.column with
  | none => rfl
  | some c => exact (hindex.names_ok p hp c hc).trimmed

theorem addIndex_records (hok : SchemaOk engine tables) {e : Table × Index} (he : e ∈ owned Table.indexes tables)
    {st : List TableDef × List (Text × Text)} (hnames : st.1.map (·.name) = tables.map Table.name) :
    addIndex toLowerCase (byName toLowerCase (tables.map Table.name)) st (indexRecords e) =
      (changeNamed toLowerCase (byName toLowerCase (tables.map Table.name)) e.1.name (addIndexDef e.2) st.1,
        st.2 ++ specialOf toLowerCase tables e) := by
  obtain ⟨ht, hi⟩ := mem_owned.mp he
  have hnodup := nodup_tables hok
  have hspecial := any_special hok he
  have hcolumns := columns_indexRecords hok he
  have hindex := (hok.tables_ok e.1 ht).indexes_ok e.2 hi
  have hne : indexRecords e ≠ [] := by
    simpa [indexRecords, Index.rows] using hindex.ne_nil
  obtain ⟨first, rest, hrest⟩ := List.exists_cons_of_ne_nil hne
  obtain ⟨htable, hname, hunique⟩ := fields_of_mem_indexRecords hok he (hrest ▸ List.mem_cons_self : first ∈ indexRecords e)
  obtain ⟨u, hu⟩ := exists_lastOf toLowerCase ht
  obtain ⟨i, hi⟩ := List.mem_iff_getElem?.mp (of_lastOf toLowerCase hu).1
  have hlookup := (lookup_byName toLowerCase tables _ i hnodup).mpr ⟨u, hu, hi⟩
  have hplace : ((st.1[i]?).toList.map fun t ↦ (t.name, e.2.name)) = [(u.name, e.2.name)] := by
    have hget := congrArg (·[i]?) hnames
    simp only [List.getElem?_map, hi, Option.map_some] at hget
    obtain ⟨d, hd, hdn⟩ := Option.map_eq_some_iff.mp hget
    rw [hd, Option.toList_some, List.map_singleton, hdn]
  unfold addIndex changeNamed specialOf
  rw [hrest]
  dsimp only
  rw [← hrest, htable, hlookup, hspecial, hname, hcolumns, hu]
  dsimp only
  by_cases h : e.2.isSpecial = true
  · have hsame : addIndexDef e.2 = id := by
      funext d
      exact if_pos h
    rw [if_pos h, if_pos h, hplace, hsame, List.modify_id]
    rfl
  · have hadd : addIndexDef e.2 = fun d ↦ { d with indexes := d.indexes ++ [indexDef e.2] } := by
      funext d
      exact if_neg h
    have hflag : decide (trim (field first "is_unique") = ['1']) = e.2.unique := by
      rw [Bool.eq_iff_iff, decide_eq_true_eq, hunique]
    rw [if_neg h, if_neg h, hadd, hflag, List.append_nil]
    rfl

theorem foldl_indexes (is : List Index) (d : TableDef) :
    is.foldl (fun d i ↦ addIndexDef i d) d =
      { d with indexes := d.indexes ++ (is.filter fun i ↦ !i.isSpecial).map indexDef } := by
  induction is generalizing d with
  | nil => simp
  | cons i is ih =>
    rw [List.foldl_cons, ih]
    by_cases h : i.isSpecial = true
    · have hadd : addIndexDef i d = d := if_pos h
      have hfilter : (i :: is).filter (fun i ↦ !i.isSpecial) = is.filter fun i ↦ !i.isSpecial :=
        List.filter_cons_of_neg (by simp [h])
      rw [hadd, hfilter]
    · have hadd : addIndexDef i d = { d with indexes := d.indexes ++ [indexDef i] } := if_neg h
      have hfilter : (i :: is).filter (fun i ↦ !i.isSpecial) = i :: is.filter fun i ↦ !i.isSpecial :=
        List.filter_cons_of_pos (by simp [h])
      rw [hadd, hfilter, List.map_cons, List.append_assoc, List.singleton_append]

theorem names_changeNamed (m : List (Text × ℕ)) (name : Text) {change : TableDef → TableDef}
    (h : ∀ d, (change d).name = d.name) (defs : List TableDef) :
    (changeNamed toLowerCase m name change defs).map (·.name) = defs.map (·.name) := by
  unfold changeNamed
  split
  · rfl
  · rename_i i _
    refine List.ext_getElem? fun j ↦ ?_
    rw [List.getElem?_map, List.getElem?_map, List.getElem?_modify]
    cases defs[j]? with
    | none => rfl
    | some d =>
      by_cases hj : i = j
      · simp [hj, h]
      · simp [hj]

theorem applyIndexes_eq (hok : SchemaOk engine tables) {columns : List Text} {rows : List (List Cell)}
    (h : Lists toLowerCase indexColumns (tables.flatMap fun t ↦ t.indexes.flatMap (·.rows t.name)) columns rows)
    {g : Table → TableDef} (hg : ∀ t, (g t).name = t.name) :
    ∃ order : List (Table × Index), order.Perm (owned Table.indexes tables) ∧
      applyIndexes toLowerCase (tables.map g) columns rows =
        (tables.map fun t ↦ { g t with
          indexes := (g t).indexes ++ ((share toLowerCase tables order t).filter fun i ↦ !i.isSpecial).map indexDef },
          order.flatMap (specialOf toLowerCase tables)) := by
  obtain ⟨order, hperm, hgroups⟩ := groups_indexes hok h
  have hnames : (tables.map g).map (·.name) = tables.map Table.name := by
    rw [List.map_map]
    exact List.map_congr_left fun t _ ↦ hg t
  have hfold : ∀ (order : List (Table × Index)), (∀ e ∈ order, e ∈ owned Table.indexes tables) →
      ∀ st : List TableDef × List (Text × Text), st.1.map (·.name) = tables.map Table.name →
      (order.map indexRecords).foldl (addIndex toLowerCase (byName toLowerCase (tables.map Table.name))) st =
        (order.foldl (fun defs e ↦
          changeNamed toLowerCase (byName toLowerCase (tables.map Table.name)) e.1.name (addIndexDef e.2) defs) st.1,
          st.2 ++ order.flatMap (specialOf toLowerCase tables)) := by
    intro order horder
    induction order with
    | nil =>
      intro st _
      rw [List.flatMap_nil, List.append_nil]
      rfl
    | cons e order ih =>
      intro st hst
      have hname (d : TableDef) : (addIndexDef e.2 d).name = d.name := by
        unfold addIndexDef
        split_ifs <;> rfl
      rw [List.map_cons, List.foldl_cons, addIndex_records hok (horder e List.mem_cons_self) hst,
        ih (fun f hf ↦ horder f (List.mem_cons_of_mem e hf)) _ (by rw [names_changeNamed _ _ hname, hst]),
        List.flatMap_cons, List.append_assoc]
      rfl
  refine ⟨order, hperm, ?_⟩
  unfold applyIndexes
  dsimp only
  rw [hgroups, hnames, hfold order (fun e he ↦ hperm.subset he) _ hnames, List.nil_append,
    foldl_changeNamed_map (nodup_tables hok) addIndexDef order g]
  exact Prod.ext (List.map_congr_left fun t _ ↦ foldl_indexes _ _) rfl

/-! ## Whole schemas -/

/-- A table as it is read, from the orders in which constraints, checks and indexes come. -/
def readTable (toLowerCase : Text → Text) (engine : Text) (tables : List Table) (cs : List (Table × Constraint))
    (ks : List (Table × Check)) (is : List (Table × Index)) (t : Table) : TableDef :=
  { constrained toLowerCase engine tables cs t with
    checks := (share toLowerCase tables ks t).map (readCheck engine)
    indexes := ((share toLowerCase tables is t).filter fun i ↦ !i.isSpecial).map indexDef }

theorem constrained_rest (cs : List (Table × Constraint)) (t : Table) :
    (constrained toLowerCase engine tables cs t).name = t.name ∧
      (constrained toLowerCase engine tables cs t).columns = t.columns ∧
      (constrained toLowerCase engine tables cs t).checks = [] ∧
      (constrained toLowerCase engine tables cs t).indexes = [] := by
  unfold constrained
  split_ifs <;> exact ⟨rfl, rfl, rfl, rfl⟩

/-- The orders that catalog results amount to, and what is read by them. -/
structure Orders (toLowerCase : Text → Text) (engine : Text) (tables : List Table) (r : Results)
    (cs : List (Table × Constraint)) (ks : List (Table × Check)) (is : List (Table × Index)) : Prop where
  constraints_perm : cs.Perm (entries tables)
  groups_eq : groups (records toLowerCase r.constraintColumns r.constraints) constraintKey =
    cs.map (constraintRecords engine)
  checks_perm : ks.Perm (owned Table.checks tables)
  indexes_perm : is.Perm (owned Table.indexes tables)
  read_eq : readTables toLowerCase engine tables r =
    (tables.map (readTable toLowerCase engine tables cs ks is), is.flatMap (specialOf toLowerCase tables))

theorem exists_orders (hok : SchemaOk engine tables) {r : Results} (hr : r.Of toLowerCase engine tables) :
    ∃ cs ks is, Orders toLowerCase engine tables r cs ks is := by
  obtain ⟨cs, hcs, hgroups, hconstraints⟩ := applyConstraints_eq hok hr.constraints
  have hname (t : Table) : (constrained toLowerCase engine tables cs t).name = t.name := (constrained_rest cs t).1
  obtain ⟨ks, hks, hchecks⟩ := applyChecks_eq hok hr.checks hname
  obtain ⟨is, his, hindexes⟩ := applyIndexes_eq (g := fun t ↦ { constrained toLowerCase engine tables cs t with
    checks := (constrained toLowerCase engine tables cs t).checks ++
      (share toLowerCase tables ks t).map (readCheck engine) }) hok hr.indexes hname
  refine ⟨cs, ks, is, hcs, hgroups, hks, his, ?_⟩
  unfold readTables fillTables
  dsimp only
  rw [show (tables.map fun t ↦ startTable t.name t.columns t.flagged) = tables.map startOf from rfl, hconstraints,
    hchecks, hindexes]
  refine Prod.ext (List.map_congr_left fun t _ ↦ ?_) rfl
  obtain ⟨-, -, hnochecks, hnoindexes⟩ := @constrained_rest toLowerCase engine tables cs t
  dsimp only
  rw [hnochecks, hnoindexes]
  rfl

/-- Nothing of a table is lost behind another whose name is the same in lower case. -/
structure Harmless (engine : Text) (t u : Table) : Prop where
  uniques_eq : t.uniques = []
  foreignKeys_eq : t.foreignKeys = []
  checks_eq : t.checks = []
  indexes_eq : t.indexes = []
  primaryKey_eq : t.primaryKey = none ∨ t.primaryKey.map (keyDef engine) = some ⟨none, t.flagged⟩ ∧
    u.primaryKey.map (keyDef engine) = t.primaryKey.map (keyDef engine)

/-- Whether a check begins with the word that is taken off. -/
def startsWithCheck (c : Check) : Prop := (c.expr.take 5).map Char.toLower = "check".toList

/-- Tables with one name in lower case are harmless to the last of them, and no check loses its beginning. -/
structure Readable (toLowerCase : Text → Text) (engine : Text) (tables : List Table) : Prop where
  hidden : ∀ t ∈ tables, ∀ u, lastOf toLowerCase tables (toLowerCase t.name) = some u → u ≠ t → Harmless engine t u
  checks : engineFamily engine ≠ "postgres".toList → ∀ t ∈ tables, ∀ c ∈ t.checks, ¬startsWithCheck c

/-- Whatever order the rows come in, each table has exactly what is its own, and exactly the special indexes are
left out. -/
def ReadExactly (toLowerCase : Text → Text) (engine : Text) (tables : List Table) : Prop :=
  ∀ r : Results, r.Of toLowerCase engine tables →
    List.Forall₂ (Exact engine tables) tables (readTables toLowerCase engine tables r).1 ∧
      (readTables toLowerCase engine tables r).2.Perm (specials tables)

/-- What is known of `toLowerCase`: on ASCII it lowers the letters, and elsewhere the case of ASCII letters makes no
difference. -/
structure LowersAscii (toLowerCase : Text → Text) : Prop where
  ascii : ∀ t, (∀ c ∈ t, c.toNat < 0x80) → toLowerCase t = t.map Char.toLower
  fold : ∀ s t, s.map Char.toLower = t.map Char.toLower → toLowerCase s = toLowerCase t

section

variable (hok : SchemaOk engine tables) (hreadable : Readable toLowerCase engine tables)

include hok hreadable

/-- What the last table of a name gets is its own, but for primary keys. -/
theorem gathered_of_readable {β : Type} (f : Table → List β)
    (hf : ∀ s u, Harmless engine s u → f s = []) {t : Table} (ht : t ∈ tables)
    (hlast : lastOf toLowerCase tables (toLowerCase t.name) = some t) : gathered toLowerCase tables f t = f t := by
  unfold gathered
  rw [Grouping.flatMap_eq_of_only (nodup_tables hok) ht]
  · exact if_pos hlast
  · intro s hs hne
    split_ifs with h
    · exact hf s t (hreadable.hidden s hs t h (Ne.symm hne))
    · rfl

omit hok in
theorem sharedKey_of_readable {cs : List (Table × Constraint)} (hcs : cs.Perm (entries tables)) {t : Table}
    (ht : t ∈ tables) (hlast : lastOf toLowerCase tables (toLowerCase t.name) = some t) :
    sharedKey toLowerCase engine tables cs t = t.primaryKey.map (keyDef engine) := by
  have hperm : ((share toLowerCase tables cs t).filterMap (primaryOf engine)).Perm
      (gathered toLowerCase tables (fun s ↦ s.primaryKey.toList.map (keyDef engine)) t) := by
    refine ((gathered_perm toLowerCase tables hcs t).filterMap _).trans (List.Perm.of_eq ?_)
    rw [filterMap_gathered]
    exact congrArg (gathered toLowerCase tables · t) (funext fun s ↦ (filterMap_constraints engine s).1)
  have hall : ∀ k ∈ (share toLowerCase tables cs t).filterMap (primaryOf engine),
      t.primaryKey.map (keyDef engine) = some k := by
    intro k hk
    obtain ⟨s, hs, hks⟩ := List.mem_flatMap.mp (hperm.subset hk)
    split_ifs at hks with h
    · obtain ⟨key, hkey, rfl⟩ := List.mem_map.mp hks
      rw [Option.mem_toList] at hkey
      have hkey : s.primaryKey = some key := hkey
      by_cases hst : s = t
      · rw [← hst, hkey, Option.map_some]
      · obtain hnone | ⟨-, hsame⟩ := (hreadable.hidden s hs t h (Ne.symm hst)).primaryKey_eq
        · rw [hnone] at hkey
          cases hkey
        · rw [hsame, hkey, Option.map_some]
    · cases hks
  unfold sharedKey
  cases hkey : t.primaryKey with
  | none =>
    rw [hkey] at hall
    rw [List.eq_nil_iff_forall_not_mem.mpr fun k hk ↦ nomatch hall k hk]
    rfl
  | some key =>
    have hmem : keyDef engine key ∈ (share toLowerCase tables cs t).filterMap (primaryOf engine) := by
      refine hperm.symm.subset (List.mem_flatMap.mpr ⟨t, ht, ?_⟩)
      rw [if_pos hlast]
      show keyDef engine key ∈ t.primaryKey.toList.map (keyDef engine)
      rw [hkey]
      exact List.mem_singleton_self _
    have hne := List.ne_nil_of_mem hmem
    rw [List.getLast?_eq_some_getLast hne, ← hkey]
    exact (hall _ (List.getLast_mem hne)).symm

theorem fillShared_of_readable (hlower : LowersAscii toLowerCase) {cs : List (Table × Constraint)}
    (hcs : cs.Perm (entries tables)) {t : Table} (ht : t ∈ tables) {f : Foreign} (hf : f ∈ t.foreignKeys) :
    fillShared toLowerCase engine tables cs (listedForeign engine f) = foreignDef engine tables f := by
  have hforeign := (hok.tables_ok t ht).foreign_ok f hf
  cases hrefs : f.refColumns with
  | some columns =>
    have hfull : [] ∉ (listedForeign engine f).refColumns := by
      intro h
      rw [listedForeign, hrefs, Option.getD_some] at h
      exact ((hforeign.columns_ok columns hrefs).2 [] h).ne_nil rfl
    rw [fillShared, if_neg hfull, listedForeign, foreignDef, hrefs]
    rfl
  | none =>
    obtain ⟨k, hk, hlength⟩ := hok.parents t ht f hf hrefs
    have hc : Constraint.foreign f ∈ t.constraints := by
      simp [Table.constraints, hf]
    have hcolumns : f.key.columns ≠ [] := ((hok.tables_ok t ht).keys_ok _ hc).ne_nil
    have hpos : f.key.columns.length ≠ 0 := List.length_eq_zero_iff.not.mpr hcolumns
    have hempty : [] ∈ (listedForeign engine f).refColumns := by
      rw [listedForeign, hrefs, Option.getD_none, List.mem_replicate]
      exact ⟨hpos, rfl⟩
    obtain ⟨p, hp, hpk⟩ := Option.bind_eq_some_iff.mp hk
    have hpmem : p ∈ tables := List.mem_of_find?_eq_some hp
    have hpname : p.name.map Char.toLower = f.refTable.map Char.toLower := by
      simpa using List.find?_some hp
    obtain ⟨u, hu⟩ := exists_lastOf toLowerCase hpmem
    obtain ⟨humem, huname⟩ := of_lastOf toLowerCase hu
    have hulast : lastOf toLowerCase tables (toLowerCase u.name) = some u := by rw [huname, hu]
    have hkey : u.primaryKey.map (keyDef engine) = some (keyDef engine k) := by
      by_cases hup : u = p
      · rw [hup, hpk, Option.map_some]
      · obtain hnone | ⟨-, hsame⟩ := (hreadable.hidden p hpmem u hu hup).primaryKey_eq
        · rw [hnone] at hpk
          cases hpk
        · rw [hsame, hpk, Option.map_some]
    have hshared : (lastOf toLowerCase tables (toLowerCase (listedForeign engine f).refTable)).bind
        (sharedKey toLowerCase engine tables cs) = some (keyDef engine k) := by
      rw [show (listedForeign engine f).refTable = f.refTable from rfl, ← hlower.fold _ _ hpname, hu, Option.bind_some,
        sharedKey_of_readable hreadable hcs humem hulast, hkey]
    have hsize : (keyDef engine k).columns.length = (listedForeign engine f).columns.length := by
      rw [keyDef, listedForeign, List.length_map, List.length_map, hlength]
    rw [fillShared, if_pos hempty, hshared]
    dsimp only
    rw [if_pos hsize, listedForeign, foreignDef, hrefs, hk]
    rfl

/-- What the last table of a name gets of a kind that a harmless table has nothing of. -/
theorem share_of_readable {β γ : Type} {f : Table → List β} {g : β → Option γ} {order : List (Table × β)}
    (horder : order.Perm (owned f tables)) (hf : ∀ s u, Harmless engine s u → (f s).filterMap g = []) {t : Table}
    (ht : t ∈ tables) (hlast : lastOf toLowerCase tables (toLowerCase t.name) = some t) :
    ((share toLowerCase tables order t).filterMap g).Perm ((f t).filterMap g) := by
  refine ((gathered_perm toLowerCase tables horder t).filterMap g).trans (List.Perm.of_eq ?_)
  rw [filterMap_gathered]
  exact gathered_of_readable hok hreadable _ hf ht hlast

/-- A hidden table stays as `schema.describe` has it, which is all there is of it. -/
theorem exact_of_hidden (cs : List (Table × Constraint)) (ks : List (Table × Check)) (is : List (Table × Index))
    {t : Table} (ht : t ∈ tables) (hlast : lastOf toLowerCase tables (toLowerCase t.name) ≠ some t) :
    Exact engine tables t (readTable toLowerCase engine tables cs ks is t) := by
  obtain ⟨u, hu⟩ := exists_lastOf toLowerCase ht
  have hne : u ≠ t := fun h ↦ hlast (h ▸ hu)
  have hharmless := hreadable.hidden t ht u hu hne
  have hflagged := (hok.tables_ok t ht).flagged_perm
  have hkey : (startOf t).primaryKey = t.primaryKey.map (keyDef engine) := by
    have hstarts : (startOf t).primaryKey = if t.flagged = [] then none else some ⟨none, t.flagged⟩ := rfl
    rw [hstarts]
    cases hprimary : t.primaryKey with
    | none =>
      rw [hprimary] at hflagged
      exact if_pos hflagged.eq_nil
    | some key =>
      have hc : Constraint.primary key ∈ t.constraints := by
        simp [Table.constraints, hprimary]
      have hcolumns : key.columns ≠ [] := ((hok.tables_ok t ht).keys_ok _ hc).ne_nil
      rw [hprimary] at hflagged
      have hsome : t.flagged ≠ [] := by
        intro hnil
        rw [hnil] at hflagged
        exact hcolumns (List.map_eq_nil_iff.mp hflagged.symm.eq_nil)
      obtain hnone | ⟨hstart, -⟩ := hharmless.primaryKey_eq
      · rw [hnone] at hprimary
        cases hprimary
      · rw [if_neg hsome, ← hstart, hprimary]
  unfold readTable
  rw [constrained, if_neg hlast, share_of_not_last ks hlast, share_of_not_last is hlast]
  refine ⟨rfl, rfl, hkey, ?_, ?_, ?_, ?_⟩
  · rw [hharmless.uniques_eq]
    rfl
  · rw [hharmless.foreignKeys_eq]
    rfl
  · rw [hharmless.checks_eq]
    rfl
  · rw [hharmless.indexes_eq]

omit hok in
theorem readCheck_eq {t : Table} (ht : t ∈ tables) {c : Check} (hc : c ∈ t.checks) :
    readCheck engine c = checkDef c := by
  unfold readCheck checkDef
  split_ifs with hengine
  · rfl
  · have hkeep : stripCheck c.expr = c.expr := if_neg (hreadable.checks hengine t ht c hc)
    rw [hkeep]

theorem exact_of_last (hlower : LowersAscii toLowerCase) {r : Results} {cs : List (Table × Constraint)}
    {ks : List (Table × Check)} {is : List (Table × Index)} (h : Orders toLowerCase engine tables r cs ks is) {t : Table}
    (ht : t ∈ tables) (hlast : lastOf toLowerCase tables (toLowerCase t.name) = some t) :
    Exact engine tables t (readTable toLowerCase engine tables cs ks is t) := by
  have hchecks := gathered_perm toLowerCase tables h.checks_perm t
  have hindexes := gathered_perm toLowerCase tables h.indexes_perm t
  rw [gathered_of_readable hok hreadable Table.checks (fun _ _ hs ↦ hs.checks_eq) ht hlast] at hchecks
  rw [gathered_of_readable hok hreadable Table.indexes (fun _ _ hs ↦ hs.indexes_eq) ht hlast] at hindexes
  have huniques := share_of_readable hok hreadable (g := uniqueOf engine) h.constraints_perm (fun s u hs ↦ by
    rw [(filterMap_constraints engine s).2, hs.uniques_eq, List.map_nil]) ht hlast
  have hforeign := share_of_readable hok hreadable (g := foreignOf engine) h.constraints_perm (fun s u hs ↦ by
    rw [filterMap_foreignOf, hs.foreignKeys_eq, List.map_nil]) ht hlast
  rw [(filterMap_constraints engine t).2] at huniques
  rw [filterMap_foreignOf] at hforeign
  have hfilled : (t.foreignKeys.map (listedForeign engine)).map (fillShared toLowerCase engine tables cs) =
      t.foreignKeys.map (foreignDef engine tables) := by
    rw [List.map_map]
    exact List.map_congr_left fun f hf ↦ fillShared_of_readable hok hreadable hlower h.constraints_perm ht hf
  unfold readTable
  rw [constrained, if_pos hlast]
  refine ⟨rfl, rfl, sharedKey_of_readable hreadable h.constraints_perm ht hlast, huniques, ?_, ?_, ?_⟩
  · rw [← hfilled]
    exact hforeign.map _
  · rw [← List.map_congr_left fun c hc ↦ readCheck_eq hreadable ht hc]
    exact hchecks.map _
  · exact (hindexes.filter _).map _

omit hok in
theorem specials_of_readable {is : List (Table × Index)} (his : is.Perm (owned Table.indexes tables)) :
    (is.flatMap (specialOf toLowerCase tables)).Perm (specials tables) := by
  refine (his.flatMap_right _).trans (List.Perm.of_eq ?_)
  unfold owned specials
  rw [List.flatMap_assoc]
  refine List.flatMap_congr fun t ht ↦ ?_
  rw [List.flatMap_map]
  obtain ⟨u, hu⟩ := exists_lastOf toLowerCase ht
  by_cases hut : u = t
  · subst hut
    calc u.indexes.flatMap (fun i ↦ specialOf toLowerCase tables (u, i))
      _ = u.indexes.flatMap fun i ↦ if i.isSpecial then [(u.name, i.name)] else [] := by
        refine List.flatMap_congr fun i _ ↦ ?_
        rw [specialOf, hu]
        rfl
      _ = (u.indexes.filter Index.isSpecial).map fun i ↦ (u.name, i.name) := by
        induction u.indexes with
        | nil => rfl
        | cons i is ih =>
          rw [List.flatMap_cons, ih, List.filter_cons]
          split_ifs <;> rfl
  · rw [(hreadable.hidden t ht u hu hut).indexes_eq]
    rfl

theorem readExactly_of_readable (hlower : LowersAscii toLowerCase) : ReadExactly toLowerCase engine tables := by
  intro r hr
  obtain ⟨cs, ks, is, h⟩ := exists_orders hok hr
  rw [h.read_eq]
  refine ⟨?_, specials_of_readable hreadable h.indexes_perm⟩
  rw [List.forall₂_map_right_iff, List.forall₂_same]
  intro t ht
  by_cases hlast : lastOf toLowerCase tables (toLowerCase t.name) = some t
  · exact exact_of_last hok hreadable hlower h ht hlast
  · exact exact_of_hidden hok hreadable cs ks is ht hlast

end

/-! ## What exact reading needs -/

/-- Results whose columns are the aliases, with the rows of checks and indexes table by table. -/
def resultsOf (engine : Text) (tables : List Table) (rows : List (List Cell)) : Results :=
  ⟨constraintColumns, rows, checkColumns, tables.flatMap fun t ↦ t.checks.map (·.row engine t.name), indexColumns,
    tables.flatMap fun t ↦ t.indexes.flatMap (·.rows t.name)⟩

theorem resultsOf_of (hlower : LowersAscii toLowerCase) {rows : List (List Cell)}
    (h : rows.Perm (tables.flatMap fun t ↦ t.constraints.flatMap (·.rows engine t.name))) :
    (resultsOf engine tables rows).Of toLowerCase engine tables := by
  have hall : ∀ n ∈ constraintColumns ++ (checkColumns ++ indexColumns),
      (∀ c ∈ n, c.toNat < 0x80) ∧ n.map Char.toLower = n := by decide
  have hmap {names : List Text} (hnames : names ⊆ constraintColumns ++ (checkColumns ++ indexColumns)) :
      names.map toLowerCase = names := by
    refine (List.map_congr_left fun n hn ↦ ?_).trans (List.map_id names)
    obtain ⟨hascii, hsame⟩ := hall n (hnames hn)
    rw [hlower.ascii n hascii, hsame, id_eq]
  exact ⟨⟨hmap (List.subset_append_left _ _), h⟩,
    ⟨hmap fun n hn ↦ List.mem_append_right _ (List.mem_append_left _ hn), .refl _⟩,
    ⟨hmap fun n hn ↦ List.mem_append_right _ (List.mem_append_right _ hn), .refl _⟩⟩

theorem ReadExactly.exact (h : ReadExactly toLowerCase engine tables) {r : Results} (hr : r.Of toLowerCase engine tables)
    {cs : List (Table × Constraint)} {ks : List (Table × Check)} {is : List (Table × Index)}
    (horders : Orders toLowerCase engine tables r cs ks is) {t : Table} (ht : t ∈ tables) :
    Exact engine tables t (readTable toLowerCase engine tables cs ks is t) := by
  have hread := (h r hr).1
  rw [horders.read_eq, List.forall₂_map_right_iff, List.forall₂_same] at hread
  exact hread t ht

/-- A hidden table that is read exactly has nothing but what `schema.describe` says of it, and special indexes. -/
theorem Exact.of_hidden {cs : List (Table × Constraint)} {ks : List (Table × Check)} {is : List (Table × Index)}
    {t : Table} (h : Exact engine tables t (readTable toLowerCase engine tables cs ks is t))
    (hlast : lastOf toLowerCase tables (toLowerCase t.name) ≠ some t) :
    t.uniques = [] ∧ t.foreignKeys = [] ∧ t.checks = [] ∧ (∀ i ∈ t.indexes, i.isSpecial = true) ∧
      (startOf t).primaryKey = t.primaryKey.map (keyDef engine) := by
  unfold readTable at h
  rw [constrained, if_neg hlast, share_of_not_last ks hlast, share_of_not_last is hlast] at h
  have huniques : [].Perm (t.uniques.map (keyDef engine)) := h.uniques_perm
  have hforeign : [].Perm (t.foreignKeys.map (foreignDef engine tables)) := h.foreignKeys_perm
  have hchecks : [].Perm (t.checks.map checkDef) := h.checks_perm
  have hindexes : [].Perm ((t.indexes.filter fun i ↦ !i.isSpecial).map indexDef) := h.indexes_perm
  refine ⟨List.map_eq_nil_iff.mp huniques.symm.eq_nil, List.map_eq_nil_iff.mp hforeign.symm.eq_nil,
    List.map_eq_nil_iff.mp hchecks.symm.eq_nil, fun i hi ↦ ?_, h.primaryKey_eq⟩
  have hnone := List.filter_eq_nil_iff.mp (List.map_eq_nil_iff.mp hindexes.symm.eq_nil) i hi
  simpa using hnone

section

variable (hok : SchemaOk engine tables)

include hok

/-- No special index of a hidden table is left out under the table's own name. -/
theorem not_special_of_hidden {is : List (Table × Index)}
    (h : (is.flatMap (specialOf toLowerCase tables)).Perm (specials tables)) {t : Table} (ht : t ∈ tables)
    (hlast : lastOf toLowerCase tables (toLowerCase t.name) ≠ some t) {i : Index} (hi : i ∈ t.indexes) :
    i.isSpecial ≠ true := by
  intro hspecial
  have hlisted : (t.name, i.name) ∈ specials tables :=
    List.mem_flatMap.mpr ⟨t, ht, List.mem_map_of_mem (List.mem_filter.mpr ⟨hi, hspecial⟩)⟩
  obtain ⟨e, -, he⟩ := List.mem_flatMap.mp (h.symm.subset hlisted)
  unfold specialOf at he
  split_ifs at he
  · obtain ⟨u, hu, hsame⟩ := List.mem_map.mp he
    rw [Option.mem_toList] at hu
    obtain ⟨humem, huname⟩ := of_lastOf toLowerCase hu
    have hut : u = t := eq_of_name_eq hok humem ht (Prod.ext_iff.mp hsame).1
    exact hlast (by rw [← hut, huname, hu])
  · cases he

/-- Catalog rows may come with those of one constraint last. -/
theorem exists_orders_last (hlower : LowersAscii toLowerCase) {e : Table × Constraint} (he : e ∈ entries tables) :
    ∃ r, r.Of toLowerCase engine tables ∧ ∃ others ks is, Orders toLowerCase engine tables r (others ++ [e]) ks is := by
  obtain ⟨before, after, hentries⟩ := List.append_of_mem he
  have hothers : (before ++ after ++ [e]).Perm (entries tables) := by
    rw [hentries, List.append_assoc]
    exact (List.perm_append_singleton e after).append_left before
  have hnodup := nodup_entryKeys hok
  have hkeys : ∀ f ∈ before ++ after, entryKey engine f ≠ entryKey engine e := by
    have h := (hothers.map (entryKey engine)).nodup_iff.mpr hnodup
    rw [List.map_append, List.nodup_append] at h
    exact fun f hf ↦ h.2.2 _ (List.mem_map_of_mem hf) _ (List.mem_singleton_self _)
  have hlisting : ((before ++ after ++ [e]).flatMap fun f ↦ f.2.rows engine f.1.name).Perm
      (tables.flatMap fun t ↦ t.constraints.flatMap (·.rows engine t.name)) := by
    refine (hothers.flatMap_right _).trans (List.Perm.of_eq ?_)
    unfold entries owned
    rw [List.flatMap_assoc]
    exact List.flatMap_congr fun t _ ↦ List.flatMap_map ..
  have hof := resultsOf_of hlower hlisting
  refine ⟨_, hof, ?_⟩
  obtain ⟨cs, ks, is, h⟩ := exists_orders hok hof
  have hrecords : records toLowerCase constraintColumns ((before ++ after ++ [e]).flatMap fun f ↦
      f.2.rows engine f.1.name) = (before ++ after).flatMap (constraintRecords engine) ++ constraintRecords engine e := by
    unfold records constraintRecords
    have hcolumns : constraintColumns.map toLowerCase = constraintColumns := hof.constraints.columns_eq
    rw [hcolumns, List.flatMap_append, List.map_append, List.map_flatMap, List.flatMap_singleton]
  have hmem : ∀ f ∈ before ++ after ++ [e], f ∈ entries tables := fun f hf ↦ hothers.subset hf
  have hne : constraintRecords engine e ≠ [] := by
    obtain ⟨ht, hc⟩ := mem_owned.mp he
    have hcolumns := ((hok.tables_ok e.1 ht).keys_ok _ hc).ne_nil
    simpa [constraintRecords, Constraint.rows] using hcolumns
  have hbefore : ∀ r ∈ (before ++ after).flatMap (constraintRecords engine), constraintKey r ≠ entryKey engine e := by
    intro r hr
    obtain ⟨f, hf, hrf⟩ := List.mem_flatMap.mp hr
    rw [constraintKey_record hok (hmem f (List.mem_append_left _ hf)) hrf]
    exact hkeys f hf
  have hlastgroup := Grouping.groups_append constraintKey position hne (fun r hr ↦ constraintKey_record hok he hr) hbefore
  rw [Grouping.insertionSort_eq position (.refl _) (sorted_constraintRecords hok he), ← hrecords] at hlastgroup
  have hgroups := h.groups_eq
  obtain ⟨others, f, rfl, hf⟩ : ∃ others f, cs = others ++ [f] ∧ constraintRecords engine f = constraintRecords engine e := by
    have hsame := hgroups.symm.trans hlastgroup
    obtain ⟨others, last, rfl, -, hlast⟩ := List.map_eq_append_iff.mp hsame
    obtain ⟨f, rfl, hf⟩ := List.map_eq_singleton_iff.mp hlast
    exact ⟨others, f, rfl, hf⟩
  have hfmem : f ∈ entries tables := h.constraints_perm.subset (List.mem_append_right _ (List.mem_singleton_self f))
  obtain ⟨r, rest, hr⟩ := List.exists_cons_of_ne_nil hne
  have hfe : f = e := by
    refine List.inj_on_of_nodup_map hnodup hfmem he ?_
    rw [← constraintKey_record hok he (hr ▸ List.mem_cons_self : r ∈ constraintRecords engine e),
      ← constraintKey_record hok hfmem (hf ▸ hr ▸ List.mem_cons_self : r ∈ constraintRecords engine f)]
  exact ⟨others, ks, is, hfe ▸ h⟩

/-- A hidden primary key is that of the last table, as its rows may come last. -/
theorem primaryKey_of_hidden (hlower : LowersAscii toLowerCase) (h : ReadExactly toLowerCase engine tables) {t u : Table}
    (ht : t ∈ tables) (hu : lastOf toLowerCase tables (toLowerCase t.name) = some u) {key : Key}
    (hkey : t.primaryKey = some key) : u.primaryKey.map (keyDef engine) = some (keyDef engine key) := by
  have he : (t, Constraint.primary key) ∈ entries tables := mem_owned.mpr ⟨ht, by simp [Table.constraints, hkey]⟩
  obtain ⟨r, hr, others, ks, is, horders⟩ := exists_orders_last hok hlower he
  obtain ⟨humem, huname⟩ := of_lastOf toLowerCase hu
  have hulast : lastOf toLowerCase tables (toLowerCase u.name) = some u := by rw [huname, hu]
  have hread := (h.exact hr horders humem).primaryKey_eq
  unfold readTable at hread
  rw [constrained, if_pos hulast] at hread
  have hshared : sharedKey toLowerCase engine tables (others ++ [(t, .primary key)]) u = some (keyDef engine key) := by
    have hshare : share toLowerCase tables (others ++ [(t, Constraint.primary key)]) u =
        share toLowerCase tables others u ++ [.primary key] := by
      unfold share
      rw [List.filter_append, List.filter_singleton, decide_eq_true hu, List.map_append]
      rfl
    rw [sharedKey, hshare, List.filterMap_append]
    exact List.getLast?_concat
  exact hread.symm.trans hshared

omit hok in
theorem length_stripCheck_le (definition : Text) : (stripCheck definition).length ≤ definition.length := by
  unfold stripCheck
  split_ifs
  · exact (List.dropWhile_suffix _).length_le.trans (List.drop_suffix 5 definition).length_le
  · exact le_rfl

omit hok in
theorem length_stripCheck_lt {c : Check} (h : startsWithCheck c) : (stripCheck c.expr).length < c.expr.length := by
  have hstrip : stripCheck c.expr = (c.expr.drop 5).dropWhile isJsSpace := if_pos h
  have hlength : ((c.expr.take 5).map Char.toLower).length = 5 := by rw [h]; rfl
  rw [List.length_map, List.length_take] at hlength
  have hle := (List.dropWhile_suffix isJsSpace (l := c.expr.drop 5)).length_le
  rw [List.length_drop] at hle
  rw [hstrip]
  omega

omit hok in
/-- Nothing is taken off checks that are all read as they are. -/
theorem not_startsWithCheck_of_perm {checks : List Check}
    (hengine : engineFamily engine ≠ "postgres".toList) (h : (checks.map (readCheck engine)).Perm (checks.map checkDef)) :
    ∀ c ∈ checks, ¬startsWithCheck c := by
  intro c hc hstarts
  have hread (c : Check) : (readCheck engine c).expr = stripCheck c.expr := if_neg hengine
  have hsums := (h.map fun d ↦ d.expr.length).sum_eq
  rw [List.map_map, List.map_map] at hsums
  refine hsums.not_lt (List.sum_lt_sum _ _ (fun d _ ↦ ?_) ⟨c, hc, ?_⟩)
  · rw [Function.comp_apply, hread]
    exact length_stripCheck_le d.expr
  · rw [Function.comp_apply, hread]
    exact length_stripCheck_lt hstarts

theorem readable_of_readExactly (hlower : LowersAscii toLowerCase) (h : ReadExactly toLowerCase engine tables) :
    Readable toLowerCase engine tables := by
  have hof := @resultsOf_of toLowerCase engine tables hlower _ (.refl _)
  obtain ⟨cs, ks, is, horders⟩ := exists_orders hok hof
  have hexact {t : Table} (ht : t ∈ tables) := h.exact hof horders ht
  have hspecials := (h _ hof).2
  rw [horders.read_eq] at hspecials
  have hnochecks {s t : Table} (hs : s ∈ tables) (hst : s ≠ t)
      (hlast : lastOf toLowerCase tables (toLowerCase s.name) = some t) : s.checks = [] :=
    ((hexact hs).of_hidden fun hself ↦ hst (Option.some.inj (hself.symm.trans hlast))).2.2.1
  refine ⟨fun t ht u hu hne ↦ ?_, fun hengine t ht ↦ ?_⟩
  · have hlast : lastOf toLowerCase tables (toLowerCase t.name) ≠ some t :=
      fun hself ↦ hne (Option.some.inj (hu.symm.trans hself))
    obtain ⟨huniques, hforeign, hchecks, hindexes, hprimary⟩ := (hexact ht).of_hidden hlast
    refine ⟨huniques, hforeign, hchecks, ?_, ?_⟩
    · exact List.eq_nil_iff_forall_not_mem.mpr fun i hi ↦
        not_special_of_hidden hok hspecials ht hlast hi (hindexes i hi)
    · cases hkey : t.primaryKey with
      | none => exact .inl rfl
      | some key =>
        refine .inr ⟨?_, primaryKey_of_hidden hok hlower h ht hu hkey⟩
        have hstarts : (startOf t).primaryKey = if t.flagged = [] then none else some ⟨none, t.flagged⟩ := rfl
        rw [hstarts, hkey] at hprimary
        split_ifs at hprimary with hflagged
        · cases hprimary
        · exact hprimary.symm
  · by_cases hlast : lastOf toLowerCase tables (toLowerCase t.name) = some t
    · have hown : gathered toLowerCase tables Table.checks t = t.checks := by
        unfold gathered
        rw [Grouping.flatMap_eq_of_only (nodup_tables hok) ht, if_pos hlast]
        intro s hs hst
        split_ifs with hshared
        · exact hnochecks hs hst hshared
        · rfl
      have hshare := gathered_perm toLowerCase tables horders.checks_perm t
      rw [hown] at hshare
      have hchecks : ((share toLowerCase tables ks t).map (readCheck engine)).Perm (t.checks.map checkDef) :=
        (hexact ht).checks_perm
      exact not_startsWithCheck_of_perm hengine ((hshare.map _).symm.trans hchecks)
    · rw [((hexact ht).of_hidden hlast).2.2.1]
      exact fun c hc ↦ nomatch hc

end

end

/-- The tables of every schema are read exactly, however the catalog rows are ordered, if and only if what shares its
name in lower case with a later table is harmless to it and, where checks come without the keyword, none begins with
it. -/
theorem readTables_exact_iff {toLowerCase : Text → Text} {engine : Text} {tables : List Table}
    (hlower : LowersAscii toLowerCase) (hok : SchemaOk engine tables) :
    ReadExactly toLowerCase engine tables ↔ Readable toLowerCase engine tables :=
  ⟨readable_of_readExactly hok hlower, fun h ↦ readExactly_of_readable hok h hlower⟩

theorem lowersAscii_map : LowersAscii (List.map Char.toLower) := ⟨fun _ _ ↦ rfl, fun _ _ h ↦ h⟩

/-- A table without columns that are looked at. -/
def emptyTable (name : String) : Table := ⟨name.toList, [], [], none, [], [], [], []⟩

def idKey (listed : Option Text) : Key := ⟨listed, [(1, "id".toList)]⟩

theorem idKey_ok {listed : Option Text} (h : ∀ n, listed = some n → IsName n) : (idKey listed).Ok where
  listed_ok := h
  ne_nil := List.cons_ne_nil _ _
  names_ok := fun c hc ↦ by
    rw [List.mem_singleton.mp hc]
    exact ⟨by decide, by decide, by decide⟩
  positioned := ⟨List.pairwise_singleton _ _, fun p hp ↦ by rw [List.mem_singleton.mp hp]; norm_num⟩

theorem idTable_ok {engine : Text} {name : String} {listed : Option Text} (hname : IsName name.toList)
    (h : ∀ n, listed = some n → IsName n) :
    ({ emptyTable name with flagged := ["id".toList], primaryKey := some (idKey listed) } : Table).Ok engine where
  name_ok := hname
  keys_ok := fun _ hc ↦ List.mem_singleton.mp hc ▸ idKey_ok h
  keys_apart := List.nodup_singleton _
  foreign_ok := fun _ hf ↦ nomatch hf
  checks_ok := fun _ hc ↦ nomatch hc
  indexes_ok := fun _ hi ↦ nomatch hi
  indexes_apart := List.nodup_nil
  flagged_perm := .refl _

/-- A table of SQLite that refers to the primary key of another without naming its columns. -/
def albums : List Table :=
  [{ emptyTable "artist" with flagged := ["id".toList], primaryKey := some (idKey none) },
    { emptyTable "album" with
      foreignKeys := [⟨idKey (some "0".toList), "Artist".toList, none⟩]
      indexes := [⟨"by_sum".toList, false, [⟨0, none, false⟩]⟩] }]

theorem albums_ok : SchemaOk "sqlite".toList albums where
  names_apart := by decide
  tables_ok := by
    intro t ht
    obtain rfl | ht := List.mem_cons.mp ht
    · exact idTable_ok ⟨by decide, by decide, by decide⟩ fun n hn ↦ nomatch hn
    · rw [List.mem_singleton.mp ht]
      refine ⟨⟨by decide, by decide, by decide⟩, fun c hc ↦ ?_, List.nodup_singleton _, fun f hf ↦ ?_,
        (fun _ hc ↦ nomatch hc), fun i hi ↦ ?_, List.nodup_singleton _, .refl _⟩
      · rw [List.mem_singleton.mp hc]
        exact idKey_ok fun n hn ↦ Option.some.inj hn ▸ ⟨by decide, by decide, by decide⟩
      · rw [List.mem_singleton.mp hf]
        exact ⟨⟨by decide, by decide, by decide⟩, fun columns h ↦ nomatch h⟩
      · rw [List.mem_singleton.mp hi]
        refine ⟨⟨by decide, by decide, by decide⟩, List.cons_ne_nil _ _, fun p hp c hc ↦ ?_,
          List.pairwise_singleton _ _, fun p hp ↦ ?_⟩
        · rw [List.mem_singleton.mp hp] at hc
          cases hc
        · rw [List.mem_singleton.mp hp]
          exact Nat.zero_le _
  parents := by
    intro t ht f hf _
    obtain rfl | ht := List.mem_cons.mp ht
    · cases hf
    · rw [List.mem_singleton.mp ht] at hf
      rw [List.mem_singleton.mp hf]
      exact ⟨idKey none, by decide, rfl⟩

theorem readTables_exact_albums : ReadExactly (List.map Char.toLower) "sqlite".toList albums := by
  refine (readTables_exact_iff lowersAscii_map albums_ok).mpr ⟨fun t ht u hu hne ↦ absurd ?_ hne, fun _ t ht _ hc ↦ ?_⟩
  · have hself : ∀ t ∈ albums, lastOf (List.map Char.toLower) albums (t.name.map Char.toLower) = some t := by decide
    exact Option.some.inj (hu.symm.trans (hself t ht))
  · have hnone : ∀ t ∈ albums, t.checks = [] := by decide
    rw [hnone t ht] at hc
    cases hc

/-- Two tables of PostgreSQL whose names differ in case only. -/
def casePair : List Table :=
  [{ emptyTable "T" with flagged := ["id".toList], primaryKey := some (idKey (some "T_pkey".toList)) }, emptyTable "t"]

theorem casePair_ok : SchemaOk "postgres".toList casePair where
  names_apart := by decide
  tables_ok := by
    intro t ht
    obtain rfl | ht := List.mem_cons.mp ht
    · exact idTable_ok ⟨by decide, by decide, by decide⟩ fun n hn ↦
        Option.some.inj hn ▸ ⟨by decide, by decide, by decide⟩
    · rw [List.mem_singleton.mp ht]
      exact ⟨⟨by decide, by decide, by decide⟩, (fun _ h ↦ nomatch h), List.nodup_nil, (fun _ h ↦ nomatch h),
        (fun _ h ↦ nomatch h), (fun _ h ↦ nomatch h), List.nodup_nil, .refl _⟩
  parents := by
    intro t ht f hf
    have hnone : ∀ t ∈ casePair, t.foreignKeys = [] := by decide
    rw [hnone t ht] at hf
    cases hf

/-- The key of the first goes to the second. -/
theorem casePair_not_exact :
    SchemaOk "postgres".toList casePair ∧ ¬ReadExactly (List.map Char.toLower) "postgres".toList casePair := by
  refine ⟨casePair_ok, fun h ↦ ?_⟩
  have hreadable := readable_of_readExactly casePair_ok lowersAscii_map h
  have hharmless := hreadable.hidden _ List.mem_cons_self (emptyTable "t") (by decide) (by decide)
  obtain hnone | ⟨hstart, -⟩ := hharmless.primaryKey_eq
  · cases hnone
  · exact absurd hstart (by decide)

end Squaero.Front.Catalog
