import Squaero.Front.Edit
import Squaero.Front.Import
import Squaero.Lib.KeyedRows

/-!
# Edit sessions

`buildPlan` of `frontend/src/utils/editSession.ts`, with `whereForRow` of `edit.ts`: the updates of a
session in the order of the grid, its deletes and its inserts. The plan leads to the table the grid shows
exactly when no update moves a row onto a key that another row still holds.
-/

namespace Squaero.Front

open Squaero.Lib

structure ResultColumn where
  name : Text
  type : Text

/-- The table a result was read from, plus its primary key (empty for a read-only one). -/
structure EditSource where
  table : Text
  db : Option Text
  schema : Option Text
  pk : List Text

inductive PkMode
  | generate
  | keep
  deriving DecidableEq, Repr

/-- Accumulated, not-yet-applied changes to a result set. The edits are listed as `Object.entries` does,
by ascending row index. -/
structure PendingChanges where
  edits : List (ℕ × RowValues)
  edits_sorted : (edits.map Prod.fst).Pairwise (· < ·)
  deletes : List ℕ
  inserts : List RowValues
  insertBatch : Option (List (Option ℕ))
  pkModes : Option (List (ℕ × PkMode))

def PendingChanges.insertBatchOf (state : PendingChanges) (insertIndex : ℕ) : Option ℕ :=
  state.insertBatch.bind fun batches ↦ batches[insertIndex]?.join

/-- What an inserted row does with its primary key. -/
def PendingChanges.pkModeOf (state : PendingChanges) (insertIndex : ℕ) : PkMode :=
  match state.insertBatchOf insertIndex with
  | none => .keep
  | some batch => (state.pkModes.bind (·.lookup batch)).getD .keep

/-- The map that identifies one result row by its primary key: none when a key column is not among the
result's columns. -/
def whereForRow (columns : List ResultColumn) (row : List Cell) (pk : List Text) : Option RowValues :=
  if pk = [] then none
  else pk.mapM fun col ↦ (columns.findIdx? (·.name = col)).map fun idx ↦ (col, row[idx]?.join)

/-- `typesFor` of `buildPlan`: a name that two columns share has the type of the last. -/
def typesFor (columns : List ResultColumn) (keys : List Text) : ColumnTypes :=
  keys.filterMap fun k ↦ (columns.reverse.find? (·.name = k)).map fun c ↦ (k, c.type)

section

variable (source : EditSource) (columns : List ResultColumn) (rows : List (List Cell))
  (state : PendingChanges)

def whereFor (idx : ℕ) : Option RowValues :=
  rows[idx]?.bind fun row ↦ whereForRow columns row source.pk

def planUpdates : List PlanItem :=
  state.edits.filterMap fun (idx, set) ↦
    if idx ∈ state.deletes ∨ set = [] then none
    else (whereFor source columns rows idx).map fun where_ ↦
      .update set where_ (some (typesFor columns (set.map Prod.fst)))

def planDeletes : List PlanItem :=
  state.deletes.filterMap fun idx ↦ (whereFor source columns rows idx).map .delete

/-- A batch that generates its key leaves the key columns out, so the database assigns them. -/
def insertValues (row : RowValues) (insertIndex : ℕ) : RowValues :=
  if state.pkModeOf insertIndex = .generate then
    row.filter fun (k, _) ↦ jsLower k ∉ source.pk.map jsLower
  else row

def planInsert (row : RowValues × ℕ) : Option PlanItem :=
  let values := insertValues source state row.1 row.2
  if values = [] then none
  else some (.insert values (some (typesFor columns (values.map Prod.fst))) (some row.2))

def planInserts : List PlanItem :=
  state.inserts.zipIdx.filterMap (planInsert source columns state)

def buildPlan : List PlanItem :=
  planUpdates source columns rows state ++ planDeletes source columns rows state ++
    planInserts source columns state

end

/-! ## What a plan does to a table -/

/-- A row of the table, by the name of the column. -/
abbrev Row := Text → Cell

def rowOf (columns : List ResultColumn) (cells : List Cell) : Row :=
  fun column ↦ (columns.findIdx? (·.name = column)).bind fun idx ↦ cells[idx]?.join

def keyOf (pk : List Text) (row : Row) : List Cell := pk.map row

/-- Every column of the map has its value, or is null where the map says null. -/
def matchesWhere (where_ : RowValues) (row : Row) : Bool :=
  where_.all fun (column, value) ↦ row column = value

def assign (set : RowValues) (row : Row) : Row :=
  fun column ↦ (set.lookup column).getD (row column)

section

variable (pk : List Text) (fill : List Row → RowValues → Row)

/-- An item against a table whose primary key is unique: none if the table rejects it, or an update or
delete matches other than one row. The row stored for an insert is `fill`'s: what the statement leaves
out gets a default or a generated value. -/
def runItem (table : List Row) : PlanItem → Option (List Row)
  | .update set where_ _ => KeyedRows.update (keyOf pk) (matchesWhere where_) (assign set) table
  | .delete where_ => KeyedRows.delete (matchesWhere where_) table
  | .insert values _ _ => KeyedRows.insert (keyOf pk) (fill table values) table

def runPlan (table : List Row) (plan : List PlanItem) : Option (List Row) :=
  plan.foldlM (runItem pk fill) table

theorem runPlan_append (table : List Row) (plan more : List PlanItem) :
    runPlan pk fill table (plan ++ more) =
      (runPlan pk fill table plan).bind fun table ↦ runPlan pk fill table more :=
  List.foldlM_append

end

/-! ## The table the grid shows -/

section

variable (source : EditSource) (columns : List ResultColumn) (rows : List (List Cell))
  (state : PendingChanges) (fill : List Row → RowValues → Row)

def rowAt (i : ℕ) : Row := rowOf columns (rows.getD i [])

def editedRow (i : ℕ) : Row := assign ((state.edits.lookup i).getD []) (rowAt columns rows i)

/-- The inserts that have a value to store. -/
def insertedValues (inserts : List (RowValues × ℕ)) : List RowValues :=
  (inserts.map fun row ↦ insertValues source state row.1 row.2).filter (· ≠ [])

def addRows (table : List Row) (inserted : List RowValues) : List Row :=
  inserted.foldl (fun table values ↦ table ++ [fill table values]) table

/-- The rows with the edits applied, without the deleted ones and with the inserts added. -/
def intended : List Row :=
  addRows fill
    (((List.range rows.length).filter (· ∉ state.deletes)).map (editedRow columns rows state))
    (insertedValues source state state.inserts.zipIdx)

/-- The rows can be told apart: a primary key that the result projects, and no two rows share. -/
structure Keyed : Prop where
  pk_ne : source.pk ≠ []
  projected : ∀ col ∈ source.pk, col ∈ columns.map ResultColumn.name
  distinct : ((rows.map (rowOf columns)).map (keyOf source.pk)).Nodup

/-- The edits move row `i` onto no key that another row holds when its update runs: the updates go by
row, before the deletes. -/
def FreeAt (i : ℕ) : Prop :=
  ∀ j < rows.length, i < j ∨ j ∈ state.deletes →
    keyOf source.pk (editedRow columns rows state i) ≠ keyOf source.pk (rowAt columns rows j)

structure Unobstructed : Prop where
  free : ∀ i < rows.length, i ∉ state.deletes → FreeAt source columns rows state i
  /-- No row is deleted twice. -/
  once : (state.deletes.filter (· < rows.length)).Nodup

end

/-! ## Identifying rows -/

section

variable {source : EditSource} {columns : List ResultColumn} {rows : List (List Cell)}
  {state : PendingChanges}

/-- The `where` of a row whose key is projected. -/
def keyWhere (pk : List Text) (row : Row) : RowValues := pk.map fun col ↦ (col, row col)

theorem matchesWhere_keyWhere (pk : List Text) (row other : Row) :
    matchesWhere (keyWhere pk row) other = true ↔ keyOf pk other = keyOf pk row := by
  simp [matchesWhere, keyWhere, keyOf, List.map_inj_left]

theorem rows_map_rowOf (columns : List ResultColumn) (rows : List (List Cell)) :
    rows.map (rowOf columns) = (List.range rows.length).map (rowAt columns rows) := by
  apply List.ext_getElem
  · simp
  · intro i hi _
    have hlt : i < rows.length := by simpa using hi
    simp [rowAt, List.getElem?_eq_getElem hlt]

theorem whereFor_eq (h : Keyed source columns rows) {i : ℕ} (hi : i < rows.length) :
    whereFor source columns rows i = some (keyWhere source.pk (rowAt columns rows i)) := by
  have hall : ∀ pk : List Text, (∀ col ∈ pk, col ∈ columns.map ResultColumn.name) →
      (pk.mapM fun col ↦ (columns.findIdx? (·.name = col)).map fun idx ↦
        (col, rows[i][idx]?.join)) = some (keyWhere pk (rowAt columns rows i)) := by
    intro pk hpk
    induction pk with
    | nil => rfl
    | cons col pk ih =>
      obtain ⟨c, hc, hname⟩ := List.mem_map.mp (hpk col (.head _))
      have hfound : (columns.findIdx? (·.name = col)).isSome := by
        rw [List.findIdx?_isSome, List.any_eq_true]
        exact ⟨c, hc, by simpa using hname⟩
      obtain ⟨idx, hidx⟩ := Option.isSome_iff_exists.mp hfound
      have hcell : rowAt columns rows i col = rows[i][idx]?.join := by
        simp [rowAt, rowOf, hidx, List.getElem?_eq_getElem hi]
      rw [List.mapM_cons, ih fun col' hcol' ↦ hpk col' (.tail _ hcol')]
      simp [hidx, hcell, keyWhere]
  unfold whereFor whereForRow
  rw [List.getElem?_eq_getElem hi, Option.bind_some, if_neg h.pk_ne]
  exact hall source.pk h.projected

theorem Keyed.injective (h : Keyed source columns rows) {i j : ℕ} (hi : i < rows.length)
    (hj : j < rows.length)
    (heq : keyOf source.pk (rowAt columns rows i) = keyOf source.pk (rowAt columns rows j)) :
    i = j := by
  have hdistinct := h.distinct
  rw [rows_map_rowOf, List.map_map, List.nodup_map_iff_inj_on List.nodup_range] at hdistinct
  exact hdistinct i (List.mem_range.mpr hi) j (List.mem_range.mpr hj) heq

/-! ## The edits that a plan carries out -/

/-- The entries of the edits that become an update. -/
def liveEdits (rows : List (List Cell)) (state : PendingChanges) : List (ℕ × RowValues) :=
  state.edits.filter fun (idx, set) ↦ idx ∉ state.deletes ∧ set ≠ [] ∧ idx < rows.length

theorem mem_liveEdits {idx : ℕ} {set : RowValues} :
    (idx, set) ∈ liveEdits rows state ↔
      (idx, set) ∈ state.edits ∧ idx ∉ state.deletes ∧ set ≠ [] ∧ idx < rows.length := by
  simp [liveEdits]

def updateItem (source : EditSource) (columns : List ResultColumn) (rows : List (List Cell))
    (edit : ℕ × RowValues) : PlanItem :=
  .update edit.2 (keyWhere source.pk (rowAt columns rows edit.1))
    (some (typesFor columns (edit.2.map Prod.fst)))

def deleteItem (source : EditSource) (columns : List ResultColumn) (rows : List (List Cell))
    (idx : ℕ) : PlanItem :=
  .delete (keyWhere source.pk (rowAt columns rows idx))

theorem whereFor_of_le {i : ℕ} (hi : rows.length ≤ i) : whereFor source columns rows i = none := by
  unfold whereFor
  rw [List.getElem?_eq_none hi]
  rfl

theorem planUpdates_eq (h : Keyed source columns rows) :
    planUpdates source columns rows state =
      (liveEdits rows state).map (updateItem source columns rows) := by
  rw [← List.filterMap_eq_map' (f := updateItem source columns rows)]
  unfold planUpdates liveEdits
  rw [List.filterMap_filter]
  apply List.filterMap_congr
  rintro ⟨idx, set⟩ _
  by_cases hi : idx < rows.length
  · by_cases hdeleted : idx ∈ state.deletes
    · simp [hdeleted]
    · by_cases hset : set = []
      · simp [hset]
      · simp [hdeleted, hset, hi, whereFor_eq h hi, updateItem]
  · simp [hi, whereFor_of_le (Nat.le_of_not_lt hi)]

theorem planDeletes_eq (h : Keyed source columns rows) :
    planDeletes source columns rows state =
      (state.deletes.filter (· < rows.length)).map (deleteItem source columns rows) := by
  rw [← List.filterMap_eq_map' (f := deleteItem source columns rows)]
  unfold planDeletes
  rw [List.filterMap_filter]
  apply List.filterMap_congr
  intro i _
  by_cases hi : i < rows.length
  · simp [hi, whereFor_eq h hi, deleteItem]
  · simp [hi, whereFor_of_le (Nat.le_of_not_lt hi)]

theorem lookup_edits {idx : ℕ} {set : RowValues} (hmem : (idx, set) ∈ state.edits) :
    state.edits.lookup idx = some set := by
  obtain ⟨before, after, hsplit⟩ := List.append_of_mem hmem
  refine List.lookup_eq_some_iff.mpr ⟨before, after, hsplit, fun edit hedit ↦ ?_⟩
  have hsorted := state.edits_sorted
  rw [hsplit, List.map_append, List.pairwise_append] at hsorted
  have hlt := hsorted.2.2 edit.1 (List.mem_map_of_mem hedit) idx (.head _)
  simpa using hlt.ne'

theorem editedRow_of_mem {idx : ℕ} {set : RowValues} (hmem : (idx, set) ∈ liveEdits rows state) :
    editedRow columns rows state idx = assign set (rowAt columns rows idx) := by
  unfold editedRow
  rw [lookup_edits (mem_liveEdits.mp hmem).1]
  rfl

theorem editedRow_of_not_mem {i : ℕ} (hi : i < rows.length) (hdeleted : i ∉ state.deletes)
    (hmem : i ∉ (liveEdits rows state).map Prod.fst) :
    editedRow columns rows state i = rowAt columns rows i := by
  have hset : (state.edits.lookup i).getD [] = [] := by
    cases hlookup : state.edits.lookup i with
    | none => rfl
    | some set =>
      by_contra hne
      obtain ⟨before, after, hsplit, _⟩ := List.lookup_eq_some_iff.mp hlookup
      have hedit : (i, set) ∈ state.edits := by simp [hsplit]
      have hlive : (i, set) ∈ liveEdits rows state := mem_liveEdits.mpr ⟨hedit, hdeleted, hne, hi⟩
      exact hmem (List.mem_map_of_mem hlive)
  unfold editedRow
  rw [hset]
  rfl

/-! ## The table between two items -/

/-- Row `i` once the edits listed have been carried out. -/
def midway (columns : List ResultColumn) (rows : List (List Cell)) (state : PendingChanges)
    (done : List ℕ) (i : ℕ) : Row :=
  if i ∈ done then editedRow columns rows state i else rowAt columns rows i

/-- The edited rows that are kept have different keys. -/
def KeptDistinct (source : EditSource) (columns : List ResultColumn) (rows : List (List Cell))
    (state : PendingChanges) : Prop :=
  ∀ i < rows.length, i ∉ state.deletes → ∀ j < rows.length, j ∉ state.deletes →
    keyOf source.pk (editedRow columns rows state i) =
      keyOf source.pk (editedRow columns rows state j) → i = j

theorem liveEdits_sorted (rows : List (List Cell)) (state : PendingChanges) :
    ((liveEdits rows state).map Prod.fst).Pairwise (· < ·) :=
  state.edits_sorted.sublist (List.filter_sublist.map Prod.fst)

variable {done todo : List (ℕ × RowValues)} {edit : ℕ × RowValues}

/-- What has been edited comes before the row at hand, and what has not been edited but will be comes
behind it. -/
theorem midway_order (hsplit : liveEdits rows state = done ++ edit :: todo) :
    (∀ i ∈ done.map Prod.fst, i < edit.1) ∧ (∀ i ∈ todo.map Prod.fst, edit.1 < i) ∧
      ∀ i ∈ done.map Prod.fst, ∀ j ∈ todo.map Prod.fst, i < j := by
  have hsorted := liveEdits_sorted rows state
  rw [hsplit, List.map_append, List.map_cons, List.pairwise_append, List.pairwise_cons] at hsorted
  obtain ⟨_, ⟨hafter, _⟩, hcross⟩ := hsorted
  exact ⟨fun i hi ↦ hcross i hi edit.1 (.head _), hafter, fun i hi j hj ↦ hcross i hi j (.tail _ hj)⟩

theorem mem_live_of_split (hsplit : liveEdits rows state = done ++ edit :: todo) :
    edit.1 < rows.length ∧ edit.1 ∉ state.deletes ∧ edit.1 ∉ done.map Prod.fst ∧
      ∀ columns, editedRow columns rows state edit.1 = assign edit.2 (rowAt columns rows edit.1) := by
  have hmem : edit ∈ liveEdits rows state := by simp [hsplit]
  obtain ⟨_, hdeleted, _, hlt⟩ := mem_liveEdits.mp hmem
  have hbefore := (midway_order hsplit).1
  exact ⟨hlt, hdeleted, fun h ↦ (hbefore _ h).false, fun _ ↦ editedRow_of_mem hmem⟩

theorem live_of_done (hsplit : liveEdits rows state = done ++ edit :: todo) {i : ℕ}
    (hi : i ∈ (done ++ [edit]).map Prod.fst) :
    i < rows.length ∧ i ∉ state.deletes ∧ i ≤ edit.1 := by
  obtain ⟨hlt, hkeep, _, _⟩ := mem_live_of_split hsplit
  rw [List.map_append, List.mem_append] at hi
  rcases hi with hbefore | hself
  · obtain ⟨⟨i, set⟩, hedit, rfl⟩ := List.mem_map.mp hbefore
    have hlive : (i, set) ∈ liveEdits rows state := hsplit ▸ List.mem_append_left _ hedit
    obtain ⟨_, hkeep, _, hlt⟩ := mem_liveEdits.mp hlive
    exact ⟨hlt, hkeep, ((midway_order hsplit).1 i hbefore).le⟩
  · have hself : i = edit.1 := by simpa using hself
    subst hself
    exact ⟨hlt, hkeep, le_rfl⟩

/-- While the edits before it went through, no row but its own has the key an update looks for. -/
theorem midway_ne_key (h : Keyed source columns rows)
    (hsplit : liveEdits rows state = done ++ edit :: todo)
    (hdone : ∀ i ∈ done.map Prod.fst, FreeAt source columns rows state i) {j : ℕ}
    (hj : j < rows.length) (hne : j ≠ edit.1) :
    keyOf source.pk (midway columns rows state (done.map Prod.fst) j) ≠
      keyOf source.pk (rowAt columns rows edit.1) := by
  obtain ⟨hlt, _, _, _⟩ := mem_live_of_split hsplit
  unfold midway
  split_ifs with hmem
  · have hbefore := (midway_order hsplit).1 j hmem
    exact hdone j hmem edit.1 hlt (.inl hbefore)
  · exact fun heq ↦ hne (h.injective hj hlt heq)

/-- A row that has been edited and one that has not keep apart if the first was moved freely. -/
theorem midway_apart (hkept : KeptDistinct source columns rows state)
    (hsplit : liveEdits rows state = done ++ edit :: todo)
    (hfree : ∀ i ∈ (done ++ [edit]).map Prod.fst, FreeAt source columns rows state i) {a b : ℕ}
    (ha : a ∈ (done ++ [edit]).map Prod.fst) (hb : b < rows.length)
    (hnot : b ∉ (done ++ [edit]).map Prod.fst) :
    keyOf source.pk (editedRow columns rows state a) ≠ keyOf source.pk (rowAt columns rows b) := by
  have hsplit' : liveEdits rows state = (done ++ [edit]) ++ todo := by simp [hsplit]
  obtain ⟨hlt, hkeep, _⟩ := live_of_done hsplit ha
  by_cases hdeleted : b ∈ state.deletes
  · exact hfree _ ha b hb (.inr hdeleted)
  by_cases htodo : b ∈ todo.map Prod.fst
  · have hsorted := liveEdits_sorted rows state
    rw [hsplit', List.map_append, List.pairwise_append] at hsorted
    exact hfree _ ha b hb (.inl (hsorted.2.2 _ ha b htodo))
  · have hsame : editedRow columns rows state b = rowAt columns rows b := by
      refine editedRow_of_not_mem hb hdeleted fun hmem ↦ ?_
      rw [hsplit', List.map_append] at hmem
      exact (List.mem_append.mp hmem).elim hnot htodo
    rw [← hsame]
    exact fun heq ↦ hnot (hkept _ hlt hkeep b hb hdeleted heq ▸ ha)

/-- An update goes through exactly when its row moves freely. -/
theorem update_ok_iff (h : Keyed source columns rows)
    (hkept : KeptDistinct source columns rows state)
    (hsplit : liveEdits rows state = done ++ edit :: todo)
    (hdone : ∀ i ∈ done.map Prod.fst, FreeAt source columns rows state i) :
    (((List.range rows.length).map
      (midway columns rows state ((done ++ [edit]).map Prod.fst))).map (keyOf source.pk)).Nodup ↔
      FreeAt source columns rows state edit.1 := by
  obtain ⟨hlt, hkeep, _, _⟩ := mem_live_of_split hsplit
  rw [List.map_map, List.nodup_map_iff_inj_on List.nodup_range]
  constructor
  · intro hinj j hj hlater heq
    have hnot : j ∉ (done ++ [edit]).map Prod.fst := by
      intro hmem
      obtain ⟨_, hkeep, hle⟩ := live_of_done hsplit hmem
      exact hlater.elim (fun hlt ↦ absurd hlt (Nat.not_lt.mpr hle)) hkeep
    have hself : edit.1 ∈ (done ++ [edit]).map Prod.fst := by simp
    have hmid := hinj edit.1 (List.mem_range.mpr hlt) j (List.mem_range.mpr hj)
      (by simp only [Function.comp_apply, midway, if_pos hself, if_neg hnot, heq])
    exact hnot (hmid ▸ hself)
  · intro hfree a ha b hb heq
    have ha := List.mem_range.mp ha
    have hb := List.mem_range.mp hb
    have hall : ∀ i ∈ (done ++ [edit]).map Prod.fst, FreeAt source columns rows state i := by
      intro i hi
      rw [List.map_append, List.mem_append] at hi
      rcases hi with hi | hi
      · exact hdone i hi
      · rwa [List.mem_singleton.mp hi]
    simp only [Function.comp_apply, midway] at heq
    split_ifs at heq with hma hmb hmb
    · exact hkept a ha (live_of_done hsplit hma).2.1 b hb (live_of_done hsplit hmb).2.1 heq
    · exact absurd heq (midway_apart hkept hsplit hall hma hb hmb)
    · exact absurd heq.symm (midway_apart hkept hsplit hall hmb ha hma)
    · exact h.injective ha hb heq

/-! ## Running the plan -/

variable {fill : List Row → RowValues → Row}

theorem runPlan_cons_iff {pk : List Text} {table result : List Row} {item : PlanItem}
    {plan : List PlanItem} :
    runPlan pk fill table (item :: plan) = some result ↔
      ∃ next, runItem pk fill table item = some next ∧ runPlan pk fill next plan = some result := by
  unfold runPlan
  rw [List.foldlM_cons]
  exact Option.bind_eq_some_iff

theorem midway_update (hsplit : liveEdits rows state = done ++ edit :: todo) :
    Function.update (midway columns rows state (done.map Prod.fst)) edit.1
        (assign edit.2 (midway columns rows state (done.map Prod.fst) edit.1)) =
      midway columns rows state ((done ++ [edit]).map Prod.fst) := by
  obtain ⟨_, _, hnew, hrow⟩ := mem_live_of_split hsplit
  funext j
  by_cases hj : j = edit.1
  · subst hj
    simp [midway, hnew, hrow]
  · simp only [Function.update_of_ne hj, midway, List.map_append, List.mem_append, List.map_cons,
      List.map_nil, List.mem_singleton, hj, or_false]

theorem runUpdates_iff (h : Keyed source columns rows)
    (hkept : KeptDistinct source columns rows state) (more : List PlanItem) (result : List Row)
    (hsplit : liveEdits rows state = done ++ todo)
    (hdone : ∀ i ∈ done.map Prod.fst, FreeAt source columns rows state i) :
    runPlan source.pk fill
        ((List.range rows.length).map (midway columns rows state (done.map Prod.fst)))
        (todo.map (updateItem source columns rows) ++ more) = some result ↔
      (∀ i ∈ todo.map Prod.fst, FreeAt source columns rows state i) ∧
        runPlan source.pk fill ((List.range rows.length).map
          (midway columns rows state ((liveEdits rows state).map Prod.fst))) more = some result := by
  induction todo generalizing done with
  | nil =>
    rw [hsplit]
    simp
  | cons edit todo ih =>
    obtain ⟨hlt, _, hnew, _⟩ := mem_live_of_split hsplit
    have hself : midway columns rows state (done.map Prod.fst) edit.1 = rowAt columns rows edit.1 :=
      if_neg hnew
    have hmatch : matchesWhere (keyWhere source.pk (rowAt columns rows edit.1))
        (midway columns rows state (done.map Prod.fst) edit.1) = true := by
      rw [hself, matchesWhere_keyWhere]
    have hothers : ∀ j ∈ List.range rows.length, j ≠ edit.1 →
        matchesWhere (keyWhere source.pk (rowAt columns rows edit.1))
          (midway columns rows state (done.map Prod.fst) j) = false := by
      intro j hj hne
      rw [Bool.eq_false_iff, Ne, matchesWhere_keyWhere]
      exact midway_ne_key h hsplit hdone (List.mem_range.mp hj) hne
    have hstep (next : List Row) :
        runItem source.pk fill
            ((List.range rows.length).map (midway columns rows state (done.map Prod.fst)))
            (updateItem source columns rows edit) = some next ↔
          FreeAt source columns rows state edit.1 ∧
            (List.range rows.length).map
              (midway columns rows state ((done ++ [edit]).map Prod.fst)) = next := by
      unfold updateItem runItem
      rw [KeyedRows.update_map_iff (keyOf source.pk) List.nodup_range (List.mem_range.mpr hlt) hmatch,
        midway_update hsplit, update_ok_iff h hkept hsplit hdone]
      exact and_iff_right hothers
    have hsplit' : liveEdits rows state = (done ++ [edit]) ++ todo := by simp [hsplit]
    rw [List.map_cons, List.cons_append, runPlan_cons_iff]
    simp only [hstep, List.map_cons, List.forall_mem_cons]
    constructor
    · rintro ⟨_, ⟨hfree, rfl⟩, hrun⟩
      have hdone' : ∀ i ∈ (done ++ [edit]).map Prod.fst, FreeAt source columns rows state i := by
        simpa [or_imp, forall_and] using ⟨by simpa using hdone, hfree⟩
      have hrest := (ih hsplit' hdone').mp hrun
      exact ⟨⟨hfree, hrest.1⟩, hrest.2⟩
    · rintro ⟨⟨hfree, htodo⟩, hrun⟩
      have hdone' : ∀ i ∈ (done ++ [edit]).map Prod.fst, FreeAt source columns rows state i := by
        simpa [or_imp, forall_and] using ⟨by simpa using hdone, hfree⟩
      exact ⟨_, ⟨hfree, rfl⟩, (ih hsplit' hdone').mpr ⟨htodo, hrun⟩⟩

/-- Row `i` when every edit has been carried out: the deleted rows are still there, unedited. -/
def settledRow (columns : List ResultColumn) (rows : List (List Cell)) (state : PendingChanges)
    (i : ℕ) : Row :=
  if i ∈ state.deletes then rowAt columns rows i else editedRow columns rows state i

theorem midway_all {i : ℕ} (hi : i < rows.length) :
    midway columns rows state ((liveEdits rows state).map Prod.fst) i =
      settledRow columns rows state i := by
  unfold midway settledRow
  by_cases hmem : i ∈ (liveEdits rows state).map Prod.fst
  · obtain ⟨⟨i, set⟩, hlive, rfl⟩ := List.mem_map.mp hmem
    rw [if_pos hmem, if_neg (mem_liveEdits.mp hlive).2.1]
  · rw [if_neg hmem]
    split_ifs with hdeleted
    · rfl
    · exact (editedRow_of_not_mem hi hdeleted hmem).symm

/-- A delete finds the row it is for and no other. -/
theorem matches_deleted (h : Keyed source columns rows)
    (hfree : ∀ i < rows.length, i ∉ state.deletes → FreeAt source columns rows state i) {i j : ℕ}
    (hi : i < rows.length) (hj : j < rows.length) (hdeleted : i ∈ state.deletes) :
    matchesWhere (keyWhere source.pk (rowAt columns rows i)) (settledRow columns rows state j) = true ↔
      j = i := by
  rw [matchesWhere_keyWhere]
  unfold settledRow
  split_ifs with hdel
  · exact ⟨fun heq ↦ h.injective hj hi heq, fun heq ↦ by rw [heq]⟩
  · constructor
    · exact fun heq ↦ absurd heq (hfree j hj hdel i hi (.inr hdeleted))
    · rintro rfl
      exact absurd hdeleted hdel

theorem runDeletes_iff (h : Keyed source columns rows)
    (hfree : ∀ i < rows.length, i ∉ state.deletes → FreeAt source columns rows state i)
    (more : List PlanItem) (result : List Row) (gone todo : List ℕ)
    (htodo : ∀ i ∈ todo, i < rows.length ∧ i ∈ state.deletes) :
    runPlan source.pk fill
        (((List.range rows.length).filter (· ∉ gone)).map (settledRow columns rows state))
        (todo.map (deleteItem source columns rows) ++ more) = some result ↔
      (todo.Nodup ∧ ∀ i ∈ todo, i ∉ gone) ∧
        runPlan source.pk fill
          (((List.range rows.length).filter (· ∉ gone ++ todo)).map (settledRow columns rows state))
          more = some result := by
  induction todo generalizing gone with
  | nil => simp
  | cons i todo ih =>
    obtain ⟨hlt, hdeleted⟩ := htodo i (.head _)
    have hmatch : ∀ j ∈ (List.range rows.length).filter (· ∉ gone),
        matchesWhere (keyWhere source.pk (rowAt columns rows i)) (settledRow columns rows state j) =
          true ↔ j = i := fun j hj ↦
      matches_deleted h hfree hlt (List.mem_range.mp (List.mem_of_mem_filter hj)) hdeleted
    have hgone : ((List.range rows.length).filter (· ∉ gone)).filter (· ≠ i) =
        (List.range rows.length).filter (· ∉ gone ++ [i]) := by
      rw [List.filter_filter]
      apply List.filter_congr
      intro j _
      simp [and_comm]
    have hstep (next : List Row) :
        runItem source.pk fill
            (((List.range rows.length).filter (· ∉ gone)).map (settledRow columns rows state))
            (deleteItem source columns rows i) = some next ↔
          i ∉ gone ∧ (((List.range rows.length).filter (· ∉ gone ++ [i])).map
            (settledRow columns rows state)) = next := by
      unfold deleteItem runItem
      rw [KeyedRows.delete_map_iff (List.nodup_range.filter _) hmatch, hgone]
      simp [hlt]
    have hrest := ih (gone ++ [i]) fun j hj ↦ htodo j (.tail _ hj)
    rw [List.map_cons, List.cons_append, runPlan_cons_iff]
    simp only [hstep, and_assoc, exists_and_left, exists_eq_left']
    rw [hrest, List.append_assoc, List.singleton_append, List.nodup_cons]
    simp only [List.mem_append, List.mem_singleton, not_or, List.forall_mem_cons]
    constructor
    · rintro ⟨hi, ⟨hnodup, hnot⟩, hrun⟩
      exact ⟨⟨fun hmem ↦ (hnot i hmem).2 rfl, hnodup⟩, ⟨hi, fun j hj ↦ (hnot j hj).1⟩, hrun⟩
    · rintro ⟨⟨hmem, hnodup⟩, ⟨hi, hnot⟩, hrun⟩
      exact ⟨hi, ⟨hnodup, fun j hj ↦ ⟨hnot j hj, fun heq ↦ hmem (heq ▸ hj)⟩⟩, hrun⟩

theorem prefix_addRows (table : List Row) (inserted : List RowValues) :
    table <+: addRows fill table inserted := by
  induction inserted generalizing table with
  | nil => exact List.prefix_rfl
  | cons values inserted ih =>
    exact (List.prefix_append table [fill table values]).trans (ih (table ++ [fill table values]))

/-- Inserts go through while the keys stay different. -/
theorem runInserts (source : EditSource) (columns : List ResultColumn) (state : PendingChanges)
    (inserts : List (RowValues × ℕ)) (table : List Row)
    (hdistinct : ((addRows fill table (insertedValues source state inserts)).map
      (keyOf source.pk)).Nodup) :
    runPlan source.pk fill table (inserts.filterMap (planInsert source columns state)) =
      some (addRows fill table (insertedValues source state inserts)) := by
  induction inserts generalizing table with
  | nil => rfl
  | cons row inserts ih =>
    by_cases hvalues : insertValues source state row.1 row.2 = []
    · have hskip : insertedValues source state (row :: inserts) =
          insertedValues source state inserts := by
        simp [insertedValues, hvalues]
      rw [hskip] at hdistinct ⊢
      rw [List.filterMap_cons_none (by simp [planInsert, hvalues])]
      exact ih table hdistinct
    · let values := insertValues source state row.1 row.2
      have hadd : addRows fill table (insertedValues source state (row :: inserts)) =
          addRows fill (table ++ [fill table values]) (insertedValues source state inserts) := by
        simp [insertedValues, addRows, hvalues, values]
      have hitem : planInsert source columns state row =
          some (.insert values (some (typesFor columns (values.map Prod.fst))) (some row.2)) :=
        if_neg hvalues
      rw [hadd] at hdistinct ⊢
      have hnodup : ((table ++ [fill table values]).map (keyOf source.pk)).Nodup :=
        hdistinct.sublist ((prefix_addRows _ _).sublist.map _)
      rw [List.filterMap_cons_some hitem]
      exact runPlan_cons_iff.mpr
        ⟨_, KeyedRows.insert_of_nodup (keyOf source.pk) hnodup, ih _ hdistinct⟩

end

/-- Two rows, `1` and `2`, of a table with the column `i` for its key. -/
def twoRows : List (List Cell) := [[some ['1']], [some ['2']]]

def twoRowsSource : EditSource := { table := ['t'], db := none, schema := none, pk := [['i']] }

def twoRowsColumns : List ResultColumn := [{ name := ['i'], type := ['n'] }]

/-- Row `2` is deleted, and row `1` gets a key of its own. -/
def renamed (key : Text) : PendingChanges where
  edits := [(0, [(['i'], some key)])]
  edits_sorted := List.pairwise_singleton _ _
  deletes := [1]
  inserts := []
  insertBatch := none
  pkModes := none

theorem twoRows_keyed : Keyed twoRowsSource twoRowsColumns twoRows where
  pk_ne := by decide
  projected := by decide
  distinct := by decide

end Squaero.Front
