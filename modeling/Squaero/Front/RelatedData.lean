import Squaero.Front.Preview
import Squaero.Lib.Traversal

/-!
# The data related to a row

`frontend/src/utils/relatedData.ts`: for each foreign key the condition that selects its dependent rows, and the queries
that list and count them.
-/

namespace Squaero.Front.RelatedData

open Squaero.Lib Squaero.Front.Preview

structure KeyPair where
  fromColumn : Text
  toColumn : Text
  deriving DecidableEq

/-- A foreign key of `fromTable`, with each of its columns and the one it refers to. -/
structure ForeignKeyRelation where
  fromTable : Text
  toTable : Text
  constraint : Text
  columns : List KeyPair
  deriving DecidableEq

structure ResultColumn where
  name : Text
  type : Option Text
  deriving DecidableEq

structure RelatedScope where
  db : Option Text
  schema : Option Text

structure RelatedQuery where
  relation : ForeignKeyRelation
  /-- The body of the `WHERE`: none where the row cannot fill it. -/
  condition : Option Text
  /-- The column that the result does not have. -/
  missing : Option Text
  label : Text
  deriving DecidableEq

section

variable (toLowerCase : Text → Text) (columns : List ResultColumn) (row : List (Option Text))

/-- `indexOfColumn` -/
def indexOfColumn (name : Text) : Option ℕ := columns.findIdx? fun c ↦ toLowerCase c.name = toLowerCase name

/-- The declared type of a column and the row's value in it. -/
def keyCell (name : Text) : Option (Text × Option Text) :=
  (indexOfColumn toLowerCase columns name).map fun idx ↦
    ((columns[idx]?.bind (·.type)).getD [], row[idx]?.join)

/-- The condition for one column of the key and its readable form. -/
def keyCondition (engine : Text) (pair : KeyPair) : Except Text (Text × Text) :=
  match keyCell toLowerCase columns row pair.toColumn with
  | none => .error pair.toColumn
  | some (type, value) =>
    let child := quoteIdentifier pair.fromColumn engine
    match value with
    | none => .ok (child ++ " IS NULL".toList, pair.fromColumn ++ " IS NULL".toList)
    | some value => .ok (child ++ " = ".toList ++ sqlLiteral value (some type), pair.fromColumn ++ ['='] ++ value)

/-- `relatedQueries` -/
def relatedQueries (relations : List ForeignKeyRelation) (engine : Text) : List RelatedQuery :=
  relations.map fun relation ↦
    match relation.columns.mapM (keyCondition toLowerCase columns row engine) with
    | .error missing => { relation, condition := none, missing := some missing, label := relation.fromTable }
    | .ok conditions =>
      { relation
        condition := some (" AND ".toList.intercalate (conditions.map Prod.fst))
        missing := none
        label := relation.fromTable ++ " where ".toList ++ " and ".toList.intercalate (conditions.map Prod.snd) }

end

/-- `relatedSelect` -/
def relatedSelect (query : RelatedQuery) (engine : Text) (scope : RelatedScope) (limit : ℤ) : Option Text :=
  query.condition.map fun condition ↦
    let qualified := qualifiedName ⟨query.relation.fromTable, scope.db, scope.schema⟩ engine
    (previewSelect qualified engine limit 0 (if condition = [] then [] else [.code condition]) []).flatMap
      (pieceText engine)

/-- `relatedCount` -/
def relatedCount (query : RelatedQuery) (engine : Text) (scope : RelatedScope) : Option Text :=
  query.condition.map fun condition ↦
    let qualified := qualifiedName ⟨query.relation.fromTable, scope.db, scope.schema⟩ engine
    "SELECT COUNT(*) FROM ".toList ++ qualified ++ " WHERE ".toList ++ condition ++ [';']

/-! ## Rows that satisfy a condition -/

/-- A decimal number. -/
def decimal (text : Text) : Option ℚ :=
  if isPlainNumber text then
    let size : ℚ := Json.natOfDigits (text.filter Char.isDigit)
    let value := size / 10 ^ ((text.dropWhile (· ≠ '.')).filter Char.isDigit).length
    some (if text.head? = some '-' then -value else value)
  else none

/-- A cell equals a string by its text and a number by its value. -/
def equals (cell : Text) : Literal → Bool
  | .text value => cell = value
  | .number value => decimal (jsTrim cell) = decimal value

/-- Two cells of columns of the type have one value. -/
def sameValue (type a b : Text) : Bool :=
  if isNumberType type ∧ isPlainNumber (jsTrim b) then decimal (jsTrim a) = decimal (jsTrim b) else a = b

/-- Both are true. -/
def and3 : Option Bool → Option Bool → Option Bool
  | some false, _ => some false
  | _, some false => some false
  | some true, some true => some true
  | _, _ => none

/-- One of them is true. -/
def or3 : Option Bool → Option Bool → Option Bool
  | some true, _ => some true
  | _, some true => some true
  | some false, some false => some false
  | _, _ => none

section

-- `others` is what operators other than `=` say of a cell and a literal, `child` a row by its columns
variable (others : Text → Text → Literal → Bool) (child : Text → Option Text)

def evalAtom : Atom → Option Bool
  | .compare column op value =>
    (child column).map fun cell ↦ if op = "=".toList then equals cell value else others op cell value
  | .isNull column => some (child column).isNone
  | .isNotNull column => some (child column).isSome
  | .oneOf column values => (child column).map fun cell ↦ values.any (equals cell)
  | .between column low high =>
    (child column).map fun cell ↦ others ">=".toList cell low && others "<=".toList cell high

/-- The value of a condition, none where it is unknown. -/
def evalExpr : Expr → Option Bool
  | .atom a => evalAtom others child a
  | .and left right => and3 (evalExpr left) (evalExpr right)
  | .or left right => or3 (evalExpr left) (evalExpr right)

end

/-- What the engine reads in the text of a condition. -/
def readCondition (engine condition : Text) : Option Expr := (SqlLex.lex (dialectOf engine) condition).bind parseFilter

section

variable (toLowerCase : Text → Text) (columns : List ResultColumn) (row : List (Option Text))

/-- The row `child` refers to the result's row: no column of the key is null and all are equal. -/
def References (relation : ForeignKeyRelation) (child : Text → Option Text) : Prop :=
  ∀ pair ∈ relation.columns, ∃ type value cell, keyCell toLowerCase columns row pair.toColumn = some (type, some value) ∧
    child pair.fromColumn = some cell ∧ sameValue type cell value = true

/-- Each column of the key has the row's value, which may be null in both. -/
def SharesKey (relation : ForeignKeyRelation) (child : Text → Option Text) : Prop :=
  ∀ pair ∈ relation.columns, ∃ type value, keyCell toLowerCase columns row pair.toColumn = some (type, value) ∧
    match value with
    | none => child pair.fromColumn = none
    | some value => ∃ cell, child pair.fromColumn = some cell ∧ sameValue type cell value = true

/-- One column of the key as a criterion. -/
def keyAtom (pair : KeyPair) : Option Atom :=
  (keyCell toLowerCase columns row pair.toColumn).map fun (type, value) ↦
    match value with
    | none => .isNull pair.fromColumn
    | some value => .compare pair.fromColumn "=".toList (literalOf value (some type))

/-- The engine reads the columns' names and the key's strings as they are meant. -/
def Plain (engine : Text) (relation : ForeignKeyRelation) : Prop :=
  ∀ pair ∈ relation.columns, ∀ atom, keyAtom toLowerCase columns row pair = some atom → atom.Safe engine

end

/-! ## One column of a key -/

section

variable {toLowerCase : Text → Text} {columns : List ResultColumn} {row : List (Option Text)} {engine : Text}

theorem and3_eq_true_iff (a b : Option Bool) : and3 a b = some true ↔ a = some true ∧ b = some true := by
  rcases a with _ | _ | _ <;> rcases b with _ | _ | _ <;> decide

/-- A column's condition spells its criterion. -/
theorem keyCondition_eq (pair : KeyPair) :
    (keyCondition toLowerCase columns row engine pair).toOption.map Prod.fst =
      (keyAtom toLowerCase columns row pair).map (spellAtom engine) := by
  unfold keyCondition keyAtom
  cases keyCell toLowerCase columns row pair.toColumn with
  | none => rfl
  | some cell =>
    obtain ⟨type, value⟩ := cell
    cases value with
    | none => rfl
    | some value =>
      have hspell : spellAtom engine (.compare pair.fromColumn "=".toList (literalOf value (some type))) =
          quoteIdentifier pair.fromColumn engine ++ " = ".toList ++ sqlLiteral value (some type) := by
        rw [spellAtom, spellLiteral_literalOf, ← List.append_assoc]
        rfl
      exact congrArg some hspell.symm

theorem keyAtom_valid {pair : KeyPair} {atom : Atom} (h : keyAtom toLowerCase columns row pair = some atom) :
    atom.Valid := by
  obtain ⟨⟨type, value⟩, _, rfl⟩ := Option.map_eq_some_iff.mp h
  cases value with
  | none => trivial
  | some value => exact ⟨by decide, literalOf_valid _ _⟩

theorem equals_literalOf (type cell value : Text) : equals cell (literalOf value (some type)) = sameValue type cell value := by
  unfold literalOf sameValue
  rw [Option.any_some]
  split_ifs <;> rfl

/-- A criterion is true of the rows that share the column's value. -/
theorem evalAtom_keyAtom {pair : KeyPair} {atom : Atom} (h : keyAtom toLowerCase columns row pair = some atom)
    (others : Text → Text → Literal → Bool) (child : Text → Option Text) :
    evalAtom others child atom = some true ↔
      ∃ type value, keyCell toLowerCase columns row pair.toColumn = some (type, value) ∧
        match value with
        | none => child pair.fromColumn = none
        | some value => ∃ cell, child pair.fromColumn = some cell ∧ sameValue type cell value = true := by
  obtain ⟨⟨type, value⟩, hcell, rfl⟩ := Option.map_eq_some_iff.mp h
  simp only [hcell, Option.some.injEq, Prod.mk.injEq]
  cases value with
  | none =>
    rw [evalAtom, Option.some.injEq, Option.isNone_iff_eq_none]
    exact ⟨fun hnull ↦ ⟨type, none, ⟨rfl, rfl⟩, hnull⟩, fun ⟨_, _, heq, hnull⟩ ↦ by
      obtain ⟨_, rfl⟩ := heq
      exact hnull⟩
  | some value =>
    rw [evalAtom, Option.map_eq_some_iff]
    simp only [if_true, equals_literalOf]
    exact ⟨fun hcell ↦ ⟨type, some value, ⟨rfl, rfl⟩, hcell⟩, fun ⟨_, _, heq, hcell⟩ ↦ by
      obtain ⟨rfl, rfl⟩ := heq
      exact hcell⟩

/-! ## The whole key -/

theorem evalExpr_runExpr (others : Text → Text → Literal → Bool) (child : Text → Option Text) {run : List Atom}
    (hne : run ≠ []) :
    evalExpr others child (runExpr run) = some true ↔ ∀ atom ∈ run, evalAtom others child atom = some true := by
  induction run using List.reverseRecOn with
  | nil => exact absurd rfl hne
  | append_singleton run atom ih =>
    by_cases hrun : run = []
    · subst hrun
      simp [runExpr, chain, evalExpr]
    · rw [runExpr_concat hrun, evalExpr, and3_eq_true_iff, ih hrun, evalExpr, List.forall_mem_append,
        List.forall_mem_singleton]

/-- The criteria of a key, where the result has all its columns. -/
def keyAtoms (toLowerCase : Text → Text) (columns : List ResultColumn) (row : List (Option Text))
    (relation : ForeignKeyRelation) : List Atom :=
  relation.columns.filterMap (keyAtom toLowerCase columns row)

/-- The conditions of a key spell its criteria. -/
theorem conditions_eq {pairs : List KeyPair} {conditions : List (Text × Text)}
    (h : pairs.mapM (keyCondition toLowerCase columns row engine) = .ok conditions) :
    (∀ pair ∈ pairs, (keyAtom toLowerCase columns row pair).isSome) ∧
      conditions.map Prod.fst = (pairs.filterMap (keyAtom toLowerCase columns row)).map (spellAtom engine) := by
  have hall := Traversal.forall₂_of_mapM h
  clear h
  induction hall with
  | nil => exact ⟨nofun, rfl⟩
  | @cons pair condition pairs conditions hcondition _ ih =>
    have heq := @keyCondition_eq toLowerCase columns row engine pair
    rw [hcondition] at heq
    obtain ⟨atom, hatom, hspell⟩ := Option.map_eq_some_iff.mp heq.symm
    refine ⟨List.forall_mem_cons.mpr ⟨by rw [hatom]; rfl, ih.1⟩, ?_⟩
    rw [List.filterMap_cons_some hatom, List.map_cons, List.map_cons, ih.2, hspell]

/-- A key that cannot be filled lacks one of its columns in the result. -/
theorem exists_of_missing {pairs : List KeyPair} {missing : Text}
    (h : pairs.mapM (keyCondition toLowerCase columns row engine) = .error missing) :
    ∃ pair ∈ pairs, keyCell toLowerCase columns row pair.toColumn = none := by
  by_contra hall
  have hok : ∀ pair ∈ pairs, ∃ condition, keyCondition toLowerCase columns row engine pair = .ok condition := by
    intro pair hpair
    unfold keyCondition
    cases hcell : keyCell toLowerCase columns row pair.toColumn with
    | none => exact absurd ⟨pair, hpair, hcell⟩ hall
    | some cell =>
      obtain ⟨type, value⟩ := cell
      cases value with
      | none => exact ⟨_, rfl⟩
      | some value => exact ⟨_, rfl⟩
  obtain ⟨conditions, hconditions⟩ := Traversal.exists_mapM_of_forall hok
  rw [h] at hconditions
  cases hconditions

/-- A query without a condition lacks a column of its key in the result, the others have one that spells the key. -/
theorem relatedQueries_cases {relations : List ForeignKeyRelation} {query : RelatedQuery}
    (h : query ∈ relatedQueries toLowerCase columns row relations engine) :
    (query.condition = none ∧ ∃ pair ∈ query.relation.columns,
        keyCell toLowerCase columns row pair.toColumn = none) ∨
      (query.condition = some (" AND ".toList.intercalate
          ((keyAtoms toLowerCase columns row query.relation).map (spellAtom engine))) ∧
        ∀ pair ∈ query.relation.columns, (keyAtom toLowerCase columns row pair).isSome) := by
  obtain ⟨relation, _, rfl⟩ := List.mem_map.mp h
  cases hconditions : relation.columns.mapM (keyCondition toLowerCase columns row engine) with
  | error missing => exact .inl ⟨rfl, exists_of_missing hconditions⟩
  | ok conditions =>
    obtain ⟨hall, heq⟩ := conditions_eq hconditions
    exact .inr ⟨congrArg (fun parts ↦ some (" AND ".toList.intercalate parts)) heq, hall⟩

/-- The engine reads the condition of a plain key as its criteria, one behind the other. -/
theorem readCondition_keyAtoms {relation : ForeignKeyRelation}
    (hne : keyAtoms toLowerCase columns row relation ≠ [])
    (hplain : Plain toLowerCase columns row engine relation) :
    readCondition engine
        (" AND ".toList.intercalate ((keyAtoms toLowerCase columns row relation).map (spellAtom engine))) =
      some (runExpr (keyAtoms toLowerCase columns row relation)) := by
  have hvalid : ∀ atom ∈ keyAtoms toLowerCase columns row relation, atom.Valid := by
    intro atom hatom
    obtain ⟨pair, _, hpair⟩ := List.mem_filterMap.mp hatom
    exact keyAtom_valid hpair
  have hsafe : ∀ atom ∈ keyAtoms toLowerCase columns row relation, atom.Safe engine := by
    intro atom hatom
    obtain ⟨pair, hmem, hpair⟩ := List.mem_filterMap.mp hatom
    exact hplain pair hmem atom hpair
  have hlex := (run_readsIff engine hne hvalid).lex_iff.mpr hsafe
  have hgroups : Groups [keyAtoms toLowerCase columns row relation] :=
    ⟨List.cons_ne_nil _ _, fun group hgroup ↦ List.mem_singleton.mp hgroup ▸ hne,
      fun group hgroup ↦ List.mem_singleton.mp hgroup ▸ hvalid⟩
  unfold readCondition
  rw [hlex]
  exact parseFilter_run engine hgroups

theorem evalExpr_keyAtoms {relation : ForeignKeyRelation} (hne : keyAtoms toLowerCase columns row relation ≠ [])
    (hall : ∀ pair ∈ relation.columns, (keyAtom toLowerCase columns row pair).isSome)
    (others : Text → Text → Literal → Bool) (child : Text → Option Text) :
    evalExpr others child (runExpr (keyAtoms toLowerCase columns row relation)) = some true ↔
      SharesKey toLowerCase columns row relation child := by
  rw [evalExpr_runExpr others child hne]
  constructor
  · intro h pair hpair
    obtain ⟨atom, hatom⟩ := Option.isSome_iff_exists.mp (hall pair hpair)
    exact (evalAtom_keyAtom hatom others child).mp (h atom (List.mem_filterMap.mpr ⟨pair, hpair, hatom⟩))
  · intro h atom hatom
    obtain ⟨pair, hpair, hatom⟩ := List.mem_filterMap.mp hatom
    exact (evalAtom_keyAtom hatom others child).mpr (h pair hpair)

/-- Without a null in the key, to share it is to refer to the row. -/
theorem sharesKey_iff_references {relation : ForeignKeyRelation} {child : Text → Option Text}
    (hnull : ∀ pair ∈ relation.columns, ∀ type, keyCell toLowerCase columns row pair.toColumn ≠ some (type, none)) :
    SharesKey toLowerCase columns row relation child ↔ References toLowerCase columns row relation child := by
  refine forall₂_congr fun pair hpair ↦ exists_congr fun type ↦ ?_
  constructor
  · rintro ⟨value, hcell, hvalue⟩
    cases value with
    | none => exact absurd hcell (hnull pair hpair type)
    | some value =>
      obtain ⟨cell, hchild, hsame⟩ := hvalue
      exact ⟨value, cell, hcell, hchild, hsame⟩
  · rintro ⟨value, cell, hcell, hchild, hsame⟩
    exact ⟨some value, hcell, cell, hchild, hsame⟩

/-- The condition of a list is behind its `WHERE` as it is. -/
theorem relatedSelect_eq {query : RelatedQuery} {condition : Text} (hcondition : query.condition = some condition)
    (hne : condition ≠ []) (scope : RelatedScope) (limit : ℤ) :
    ∃ before behind, relatedSelect query engine scope limit =
      some (before ++ qualifiedName ⟨query.relation.fromTable, scope.db, scope.schema⟩ engine ++ " WHERE ".toList ++
        condition ++ behind) := by
  unfold relatedSelect previewSelect
  rw [hcondition, Option.map_some]
  dsimp only
  rw [if_neg hne, if_neg (List.cons_ne_nil _ _), if_pos rfl]
  have hparts (before qualified behind : Text) :
      (SqlStrings.Piece.code (before ++ qualified) :: ([.code " WHERE ".toList, .code condition] ++
        [.code behind])).flatMap (pieceText engine) = before ++ qualified ++ " WHERE ".toList ++ condition ++ behind := by
    simp [pieceText]
  by_cases hinformix : engineFamily engine = "informix".toList
  · rw [if_pos hinformix]
    exact ⟨_, _, congrArg some (hparts _ _ _)⟩
  rw [if_neg hinformix]
  by_cases hlimit : limit < 1
  · rw [if_pos hlimit]
    exact ⟨_, _, congrArg some (hparts _ _ _)⟩
  rw [if_neg hlimit]
  by_cases hmssql : engineFamily engine = "mssql".toList
  · rw [if_pos hmssql]
    exact ⟨_, _, congrArg some (hparts _ _ _)⟩
  · rw [if_neg hmssql]
    exact ⟨_, _, congrArg some (hparts _ _ _)⟩

theorem condition_ne_nil {relation : ForeignKeyRelation} (hne : keyAtoms toLowerCase columns row relation ≠ []) :
    " AND ".toList.intercalate ((keyAtoms toLowerCase columns row relation).map (spellAtom engine)) ≠ [] := by
  obtain ⟨first, atoms, hatoms⟩ := List.exists_cons_of_ne_nil hne
  rw [hatoms]
  cases atoms with
  | nil =>
    rw [List.map_singleton, List.intercalate_singleton]
    exact spellAtom_ne_nil engine first
  | cons second atoms =>
    rw [List.map_cons, List.map_cons, List.intercalate_cons_cons, List.append_assoc]
    exact List.append_ne_nil_of_left_ne_nil (spellAtom_ne_nil engine first) _

theorem keyAtoms_ne_nil {relation : ForeignKeyRelation} (hcolumns : relation.columns ≠ [])
    (hall : ∀ pair ∈ relation.columns, (keyAtom toLowerCase columns row pair).isSome) :
    keyAtoms toLowerCase columns row relation ≠ [] := by
  obtain ⟨pair, hpair⟩ := List.exists_mem_of_ne_nil _ hcolumns
  obtain ⟨atom, hatom⟩ := Option.isSome_iff_exists.mp (hall pair hpair)
  exact List.ne_nil_of_mem (List.mem_filterMap.mpr ⟨pair, hpair, hatom⟩)

end

/-- Orders by their customer. -/
def customerOrders : ForeignKeyRelation where
  fromTable := "orders".toList
  toTable := "customers".toList
  constraint := "fk".toList
  columns := [⟨"customer".toList, "id".toList⟩]

/-- The query of the customer 3. -/
def ordersOfThree : RelatedQuery where
  relation := customerOrders
  condition := some "\"customer\" = 3".toList
  missing := none
  label := "orders where customer=3".toList

end Squaero.Front.RelatedData
