import Squaero.Front.EditSession
import Squaero.Lib.Records
import Squaero.Lib.Traversal

/-!
# Conflicts among pasted rows

`findConflicts` of `frontend/src/utils/rowPaste.ts`: which of the pending inserts are already known to collide with one
another or with the rows on screen.
-/

namespace Squaero.Front.RowPaste

open Squaero.Lib

/-- The rows already on screen. -/
structure LoadedRows where
  columns : List Text
  rows : List (List Cell)

structure Keys where
  pk : List Text
  uniqueSets : List (List Text)

/-- Insert index and the columns involved. -/
abbrev Conflicts := List (ℕ × List Text)

def same (a b : List Text) : Bool := a.zipIdx.all fun (v, i) ↦ b[i]? = some v

def flag (out : Conflicts) (i : ℕ) (set : List Text) : Conflicts :=
  Records.put i (set.foldl (fun cols c ↦ if c ∈ cols then cols else cols ++ [c]) ((out.lookup i).getD [])) out

section

variable (toLowerCase : Text → Text)

/-- `loadedIndex.get`: of two columns with one name the later one. -/
def loadedIndex (columns : List Text) (name : Text) : Option ℕ :=
  (columns.zipIdx.reverse.find? fun (c, _) ↦ toLowerCase c = name).map (·.2)

/-- `byLowerKey.get` -/
def byLowerKey (values : RowValues) (name : Text) : Option Text :=
  (values.map (·.1)).reverse.find? fun k ↦ toLowerCase k = name

def tupleOf (values : RowValues) (set : List Text) : Option (List Text) :=
  set.mapM fun col ↦ (byLowerKey toLowerCase values (toLowerCase col)).bind fun key ↦ (values.lookup key).join

def loadedTuple (columns : List Text) (row : List Cell) (set : List Text) : Option (List Text) :=
  set.mapM fun col ↦ (loadedIndex toLowerCase columns (toLowerCase col)).bind fun i ↦ row[i]?.join

variable (inserts : List RowValues) (loaded : LoadedRows)

def clashesPending (tuples : List (Option (List Text))) (tuple : List Text) (i : ℕ) : Bool :=
  tuples.zipIdx.any fun (other, j) ↦
    j ≠ i && match other with
      | some other => same tuple other
      | none => false

def clashesLoaded (set tuple : List Text) : Bool :=
  loaded.rows.any fun row ↦
    match loadedTuple toLowerCase loaded.columns row set with
    | some t => same tuple t
    | none => false

def check (out : Conflicts) (set : List Text) (applies : ℕ → Bool) : Conflicts :=
  if set = [] then out
  else
    let tuples := inserts.mapIdx fun i values ↦ if applies i then tupleOf toLowerCase values set else none
    tuples.zipIdx.foldl (fun out (tuple, i) ↦
      match tuple with
      | none => out
      | some tuple =>
        if clashesPending tuples tuple i || clashesLoaded toLowerCase loaded set tuple then flag out i set else out) out

def findConflicts (keys : Keys) (pkModeOf : ℕ → PkMode) : Conflicts :=
  keys.uniqueSets.foldl (fun out set ↦ check toLowerCase inserts loaded out set fun _ ↦ true)
    (check toLowerCase inserts loaded [] keys.pk fun i ↦ pkModeOf i = .keep)

end

/-- The insert is reported with the column. -/
def Reports (out : Conflicts) (i : ℕ) (c : Text) : Prop := ∃ cols, out.lookup i = some cols ∧ c ∈ cols

/-! ## What a conflict is -/

section

variable (toLowerCase : Text → Text)

/-- All columns of the set are given a value other than NULL. -/
def Gives (values : RowValues) (set tuple : List Text) : Prop :=
  List.Forall₂ (fun col v ↦ ∃ key, (key, some v) ∈ values ∧ toLowerCase key = toLowerCase col) set tuple

/-- The column's place, where later columns have other names. -/
def ColumnAt (columns : List Text) (col : Text) (i : ℕ) : Prop :=
  (∃ name, columns[i]? = some name ∧ toLowerCase name = toLowerCase col) ∧
    ∀ j name, i < j → columns[j]? = some name → toLowerCase name ≠ toLowerCase col

/-- A row on screen has a value other than NULL in all columns of the set. -/
def Shows (columns : List Text) (row : List Cell) (set tuple : List Text) : Prop :=
  List.Forall₂ (fun col v ↦ ∃ i, ColumnAt toLowerCase columns col i ∧ row[i]? = some (some v)) set tuple

/-- The insert has the values of another insert that the set is checked for, or those of a row on screen. -/
def Clashes (inserts : List RowValues) (loaded : LoadedRows) (set : List Text) (checked : ℕ → Prop) (i : ℕ) : Prop :=
  checked i ∧ ∃ values tuple, inserts[i]? = some values ∧ Gives toLowerCase values set tuple ∧
    ((∃ j other, j ≠ i ∧ checked j ∧ inserts[j]? = some other ∧ Gives toLowerCase other set tuple) ∨
      ∃ row ∈ loaded.rows, Shows toLowerCase loaded.columns row set tuple)

end

/-! ## Reports -/

theorem reports_flag {out : Conflicts} {i j : ℕ} {set : List Text} {c : Text} :
    Reports (flag out i set) j c ↔ Reports out j c ∨ j = i ∧ c ∈ set := by
  have hpush (cols : List Text) : c ∈ set.foldl (fun cols c ↦ if c ∈ cols then cols else cols ++ [c]) cols ↔
      c ∈ cols ∨ c ∈ set := by
    induction set generalizing cols with
    | nil => simp
    | cons c' set ih =>
      rw [List.foldl_cons, ih, List.mem_cons]
      split_ifs with hmem
      · constructor
        · exact fun h ↦ h.imp id .inr
        · rintro (h | rfl | h)
          · exact .inl h
          · exact .inl hmem
          · exact .inr h
      · rw [List.mem_append, List.mem_singleton, or_assoc]
  unfold Reports flag
  rw [Records.lookup_put]
  by_cases hj : j = i
  · subst hj
    simp only [if_true, Option.some.injEq, exists_eq_left', hpush, true_and]
    cases out.lookup j <;> simp
  · simp [hj]

theorem same_iff {a b : List Text} (h : a.length = b.length) : same a b = true ↔ a = b := by
  unfold same
  rw [List.all_eq_true]
  constructor
  · intro hall
    refine List.ext_getElem h fun i hi hi' ↦ ?_
    have hplace : (a[i], i) ∈ a.zipIdx := List.mem_zipIdx_iff_getElem?.mpr (List.getElem?_eq_getElem hi)
    have hvalue := of_decide_eq_true (hall _ hplace)
    dsimp only at hvalue
    rw [List.getElem?_eq_getElem hi'] at hvalue
    exact (Option.some.inj hvalue).symm
  · rintro rfl ⟨v, i⟩ hplace
    exact decide_eq_true (List.mem_zipIdx_iff_getElem?.mp hplace)

section

variable {toLowerCase : Text → Text} {inserts : List RowValues} {loaded : LoadedRows}

/-- Names are keys of an insert once, also in other letters. -/
def Distinct (toLowerCase : Text → Text) (values : RowValues) : Prop :=
  (values.map fun p ↦ toLowerCase p.1).Nodup

theorem byLowerKey_eq_some_iff {values : RowValues} (h : Distinct toLowerCase values) {name key : Text} :
    byLowerKey toLowerCase values name = some key ↔ key ∈ values.map (·.1) ∧ toLowerCase key = name := by
  unfold byLowerKey
  constructor
  · intro hfind
    exact ⟨List.mem_reverse.mp (List.mem_of_find?_eq_some hfind), by simpa using List.find?_some hfind⟩
  · intro ⟨hkey, hname⟩
    cases hfind : (values.map (·.1)).reverse.find? fun k ↦ toLowerCase k = name with
    | none =>
      have hnot := List.find?_eq_none.mp hfind key (List.mem_reverse.mpr hkey)
      exact absurd (decide_eq_true hname) hnot
    | some found =>
      have hfound : found ∈ values.map (·.1) := List.mem_reverse.mp (List.mem_of_find?_eq_some hfind)
      have hlower : toLowerCase found = name := by simpa using List.find?_some hfind
      have hnodup : ((values.map (·.1)).map toLowerCase).Nodup := by
        rw [List.map_map]
        exact h
      rw [List.inj_on_of_nodup_map hnodup hfound hkey (hlower.trans hname.symm)]

theorem Distinct.keys {values : RowValues} (h : Distinct toLowerCase values) : (values.map (·.1)).Nodup := by
  have hnodup : ((values.map (·.1)).map toLowerCase).Nodup := by
    rw [List.map_map]
    exact h
  exact hnodup.of_map

theorem tupleOf_eq_some_iff {values : RowValues} (h : Distinct toLowerCase values) {set tuple : List Text} :
    tupleOf toLowerCase values set = some tuple ↔ Gives toLowerCase values set tuple := by
  unfold tupleOf Gives
  rw [Traversal.mapM_eq_some_iff]
  refine iff_of_eq (congrArg (fun R ↦ List.Forall₂ R set tuple) ?_)
  funext col v
  rw [Option.bind_eq_some_iff]
  simp only [byLowerKey_eq_some_iff h, Option.join_eq_some_iff, Records.lookup_eq_some_iff h.keys]
  refine propext (exists_congr fun key ↦ ?_)
  constructor
  · exact fun ⟨⟨_, hname⟩, hvalue⟩ ↦ ⟨hvalue, hname⟩
  · exact fun ⟨hvalue, hname⟩ ↦ ⟨⟨List.mem_map.mpr ⟨_, hvalue, rfl⟩, hname⟩, hvalue⟩

theorem loadedIndex_concat (columns : List Text) (last name : Text) :
    loadedIndex toLowerCase (columns ++ [last]) name =
      if toLowerCase last = name then some columns.length else loadedIndex toLowerCase columns name := by
  unfold loadedIndex
  rw [List.zipIdx_append, List.reverse_append, Nat.zero_add]
  change (((last, columns.length) :: columns.zipIdx.reverse).find? _).map _ = _
  rw [List.find?_cons]
  by_cases hname : toLowerCase last = name
  · simp [hname]
  · simp [hname]

/-- The column's place is the last one where it is the last, and else one before. -/
theorem columnAt_concat (columns : List Text) (last col : Text) (i : ℕ) :
    ColumnAt toLowerCase (columns ++ [last]) col i ↔
      if toLowerCase last = toLowerCase col then i = columns.length else ColumnAt toLowerCase columns col i := by
  have hlast : (columns ++ [last])[columns.length]? = some last := List.getElem?_concat_length
  have hplace {j : ℕ} {name : Text} : (columns ++ [last])[j]? = some name ↔
      columns[j]? = some name ∨ j = columns.length ∧ last = name := by
    rw [List.getElem?_append]
    split_ifs with hj
    · exact (or_iff_left fun h ↦ hj.ne h.1).symm
    · rw [List.getElem?_eq_none (not_lt.mp hj), List.getElem?_singleton]
      split_ifs with hzero
      · have hj' : j = columns.length := by omega
        simp [hj']
      · have hj' : j ≠ columns.length := by omega
        simp [hj']
  unfold ColumnAt
  split_ifs with hcol
  · constructor
    · intro ⟨⟨name, hname, _⟩, hlater⟩
      rcases hplace.mp hname with hbefore | ⟨hi, -⟩
      · exact absurd hcol (hlater _ last (List.getElem?_eq_some_iff.mp hbefore).1 hlast)
      · exact hi
    · rintro rfl
      refine ⟨⟨last, hlast, hcol⟩, fun j name hj hname ↦ ?_⟩
      rcases hplace.mp hname with hbefore | ⟨hj', -⟩
      · exact absurd (List.getElem?_eq_some_iff.mp hbefore).1 hj.not_gt
      · exact absurd hj' hj.ne'
  · constructor
    · intro ⟨⟨name, hname, hlower⟩, hlater⟩
      refine ⟨⟨name, (hplace.mp hname).resolve_right fun h ↦ hcol (h.2 ▸ hlower), hlower⟩, fun j name' hj hname' ↦ ?_⟩
      exact hlater j name' hj (hplace.mpr (.inl hname'))
    · intro ⟨⟨name, hname, hlower⟩, hlater⟩
      refine ⟨⟨name, hplace.mpr (.inl hname), hlower⟩, fun j name' hj hname' ↦ ?_⟩
      rcases hplace.mp hname' with hbefore | ⟨-, rfl⟩
      · exact hlater j name' hj hbefore
      · exact hcol

theorem loadedIndex_eq_some_iff {columns : List Text} {col : Text} {i : ℕ} :
    loadedIndex toLowerCase columns (toLowerCase col) = some i ↔ ColumnAt toLowerCase columns col i := by
  induction columns using List.reverseRecOn with
  | nil => exact iff_of_false nofun fun h ↦ nomatch h.1
  | append_singleton columns last ih =>
    rw [loadedIndex_concat, columnAt_concat]
    split_ifs
    · rw [Option.some.injEq, eq_comm]
    · exact ih

theorem loadedTuple_eq_some_iff {columns : List Text} {row : List Cell} {set tuple : List Text} :
    loadedTuple toLowerCase columns row set = some tuple ↔ Shows toLowerCase columns row set tuple := by
  unfold loadedTuple Shows
  rw [Traversal.mapM_eq_some_iff]
  refine iff_of_eq (congrArg (fun R ↦ List.Forall₂ R set tuple) ?_)
  funext col v
  rw [Option.bind_eq_some_iff]
  simp only [loadedIndex_eq_some_iff, Option.join_eq_some_iff]

/-- The tuples of the inserts that the set is checked for. -/
def tuplesOf (toLowerCase : Text → Text) (inserts : List RowValues) (set : List Text) (applies : ℕ → Bool) :
    List (Option (List Text)) :=
  inserts.mapIdx fun i values ↦ if applies i then tupleOf toLowerCase values set else none

theorem getElem?_tuplesOf (hinserts : ∀ values ∈ inserts, Distinct toLowerCase values) {set : List Text}
    {applies : ℕ → Bool} {i : ℕ} {tuple : List Text} :
    (tuplesOf toLowerCase inserts set applies)[i]? = some (some tuple) ↔
      applies i = true ∧ ∃ values, inserts[i]? = some values ∧ Gives toLowerCase values set tuple := by
  rw [tuplesOf, List.getElem?_mapIdx, Option.map_eq_some_iff]
  constructor
  · intro ⟨values, hvalues, htuple⟩
    split_ifs at htuple with happlies
    exact ⟨happlies, values, hvalues,
      (tupleOf_eq_some_iff (hinserts values (List.mem_of_getElem? hvalues))).mp htuple⟩
  · intro ⟨happlies, values, hvalues, hgives⟩
    refine ⟨values, hvalues, ?_⟩
    rw [if_pos happlies]
    exact (tupleOf_eq_some_iff (hinserts values (List.mem_of_getElem? hvalues))).mpr hgives

theorem clashesPending_iff (hinserts : ∀ values ∈ inserts, Distinct toLowerCase values) {set tuple : List Text}
    (hlength : set.length = tuple.length) {applies : ℕ → Bool} {i : ℕ} :
    clashesPending (tuplesOf toLowerCase inserts set applies) tuple i = true ↔
      ∃ j other, j ≠ i ∧ applies j = true ∧ inserts[j]? = some other ∧ Gives toLowerCase other set tuple := by
  unfold clashesPending
  rw [List.any_eq_true]
  constructor
  · intro ⟨⟨found, j⟩, hfound, hclash⟩
    rw [Bool.and_eq_true, decide_eq_true_eq] at hclash
    obtain ⟨hj, hsame⟩ := hclash
    cases found with
    | none => cases hsame
    | some found =>
      obtain ⟨happlies, other, hother, hgives⟩ :=
        (getElem?_tuplesOf hinserts).mp (List.mem_zipIdx_iff_getElem?.mp hfound)
      have heq : tuple = found := (same_iff (hlength.symm.trans hgives.length_eq)).mp hsame
      exact ⟨j, other, hj, happlies, hother, heq ▸ hgives⟩
  · intro ⟨j, other, hj, happlies, hother, hgives⟩
    have hplace := (getElem?_tuplesOf hinserts).mpr ⟨happlies, other, hother, hgives⟩
    refine ⟨(some tuple, j), List.mem_zipIdx_iff_getElem?.mpr hplace, ?_⟩
    rw [Bool.and_eq_true, decide_eq_true_eq]
    exact ⟨hj, (same_iff rfl).mpr rfl⟩

theorem clashesLoaded_iff {set tuple : List Text} (hlength : set.length = tuple.length) :
    clashesLoaded toLowerCase loaded set tuple = true ↔
      ∃ row ∈ loaded.rows, Shows toLowerCase loaded.columns row set tuple := by
  unfold clashesLoaded
  rw [List.any_eq_true]
  refine exists_congr fun row ↦ and_congr_right fun _ ↦ ?_
  cases ht : loadedTuple toLowerCase loaded.columns row set with
  | none =>
    refine iff_of_false nofun fun hshows ↦ ?_
    rw [loadedTuple_eq_some_iff.mpr hshows] at ht
    cases ht
  | some t =>
    have hshows := loadedTuple_eq_some_iff.mp ht
    have hlengths : tuple.length = t.length := hlength.symm.trans hshows.length_eq
    change same tuple t = true ↔ _
    rw [same_iff hlengths, ← loadedTuple_eq_some_iff, ht, Option.some.injEq, eq_comm]

/-- Flagging the inserts of a list one by one. -/
theorem reports_foldl_flag {set : List Text} (clashes : List Text → ℕ → Bool)
    (places : List (Option (List Text) × ℕ)) {out : Conflicts} {i : ℕ} {c : Text} :
    Reports (places.foldl (fun out (tuple, i) ↦
      match tuple with
      | none => out
      | some tuple => if clashes tuple i then flag out i set else out) out) i c ↔
      Reports out i c ∨ c ∈ set ∧ ∃ tuple, (some tuple, i) ∈ places ∧ clashes tuple i = true := by
  induction places generalizing out with
  | nil => simp
  | cons place places ih =>
    obtain ⟨found, j⟩ := place
    rw [List.foldl_cons, ih]
    cases found with
    | none => simp
    | some found =>
      dsimp only
      split_ifs with hclash
      · rw [reports_flag, or_assoc]
        refine or_congr_right ⟨?_, ?_⟩
        · rintro (⟨rfl, hc⟩ | ⟨hc, tuple, hplace, htuple⟩)
          · exact ⟨hc, found, .head _, hclash⟩
          · exact ⟨hc, tuple, .tail _ hplace, htuple⟩
        · rintro ⟨hc, tuple, hplace, htuple⟩
          rcases List.mem_cons.mp hplace with heq | hplace
          · exact .inl ⟨(Prod.mk.inj heq).2, hc⟩
          · exact .inr ⟨hc, tuple, hplace, htuple⟩
      · refine or_congr_right (and_congr_right fun _ ↦ exists_congr fun tuple ↦ ?_)
        rw [List.mem_cons]
        constructor
        · exact fun ⟨hplace, htuple⟩ ↦ ⟨.inr hplace, htuple⟩
        · rintro ⟨heq | hplace, htuple⟩
          · obtain ⟨hfound, rfl⟩ := Prod.mk.inj heq
            exact absurd (Option.some.inj hfound ▸ htuple) hclash
          · exact ⟨hplace, htuple⟩

/-- A check adds the inserts that clash on its set. -/
theorem reports_check (hinserts : ∀ values ∈ inserts, Distinct toLowerCase values) {out : Conflicts} {set : List Text}
    {applies : ℕ → Bool} {i : ℕ} {c : Text} :
    Reports (check toLowerCase inserts loaded out set applies) i c ↔
      Reports out i c ∨ c ∈ set ∧ Clashes toLowerCase inserts loaded set (fun j ↦ applies j = true) i := by
  unfold check
  split_ifs with hnil
  · exact (or_iff_left fun h ↦ List.not_mem_nil (hnil ▸ h.1)).symm
  · refine (reports_foldl_flag (fun tuple i ↦ clashesPending (tuplesOf toLowerCase inserts set applies) tuple i ||
      clashesLoaded toLowerCase loaded set tuple) _).trans (or_congr_right (and_congr_right fun _ ↦ ?_))
    unfold Clashes
    simp only [Bool.or_eq_true, List.mem_zipIdx_iff_getElem?]
    constructor
    · intro ⟨tuple, hplace, hclash⟩
      obtain ⟨happlies, values, hvalues, hgives⟩ := (getElem?_tuplesOf hinserts).mp hplace
      refine ⟨happlies, values, tuple, hvalues, hgives, ?_⟩
      rwa [clashesPending_iff hinserts hgives.length_eq, clashesLoaded_iff hgives.length_eq] at hclash
    · intro ⟨happlies, values, tuple, hvalues, hgives, hclash⟩
      refine ⟨tuple, (getElem?_tuplesOf hinserts).mpr ⟨happlies, values, hvalues, hgives⟩, ?_⟩
      rwa [clashesPending_iff hinserts hgives.length_eq, clashesLoaded_iff hgives.length_eq]

/-- All checks add the inserts that clash on a set that is checked for them. -/
theorem reports_findConflicts (hinserts : ∀ values ∈ inserts, Distinct toLowerCase values) (keys : Keys)
    (pkModeOf : ℕ → PkMode) {i : ℕ} {c : Text} :
    Reports (findConflicts toLowerCase inserts loaded keys pkModeOf) i c ↔
      (c ∈ keys.pk ∧ Clashes toLowerCase inserts loaded keys.pk (fun j ↦ pkModeOf j = .keep) i) ∨
        ∃ set ∈ keys.uniqueSets, c ∈ set ∧ Clashes toLowerCase inserts loaded set (fun _ ↦ True) i := by
  have hsets (sets : List (List Text)) (out : Conflicts) :
      Reports (sets.foldl (fun out set ↦ check toLowerCase inserts loaded out set fun _ ↦ true) out) i c ↔
        Reports out i c ∨ ∃ set ∈ sets, c ∈ set ∧ Clashes toLowerCase inserts loaded set (fun _ ↦ True) i := by
    induction sets generalizing out with
    | nil => simp
    | cons set sets ih =>
      rw [List.foldl_cons, ih, reports_check hinserts, or_assoc, List.exists_mem_cons_iff]
      simp only
  have hnone : ¬ Reports [] i c := nofun
  unfold findConflicts
  rw [hsets, reports_check hinserts, or_iff_right hnone]
  simp only [decide_eq_true_eq]

end

/-! ## What the database rejects -/

/-- What an insert sends: a batch that generates its key leaves the key columns out. -/
def sentValues (toLowerCase : Text → Text) (pk : List Text) (mode : PkMode) (values : RowValues) : RowValues :=
  if mode = .generate then values.filter fun (k, _) ↦ toLowerCase k ∉ pk.map toLowerCase else values

/-- The values of a row by column, with NULL for what is not known of it. -/
abbrev VisibleRow := Text → Cell

def sentRow (toLowerCase : Text → Text) (values : RowValues) : VisibleRow :=
  fun col ↦ (values.find? fun p ↦ toLowerCase p.1 = toLowerCase col).bind (·.2)

def shownRow (toLowerCase : Text → Text) (columns : List Text) (row : List Cell) : VisibleRow :=
  fun col ↦ (loadedIndex toLowerCase columns (toLowerCase col)).bind fun i ↦ row[i]?.join

/-- Two rows have one value in every column of a key, and none of them is NULL. -/
def Violates (set : List Text) (row other : VisibleRow) : Prop :=
  set ≠ [] ∧ ∀ col ∈ set, ∃ v, row col = some v ∧ other col = some v

/-- A table with the keys takes the row. -/
def Accepts (keys : Keys) (table : List VisibleRow) (row : VisibleRow) : Prop :=
  ∀ set, set = keys.pk ∨ set ∈ keys.uniqueSets → ∀ other ∈ table, ¬ Violates set row other

section

variable {toLowerCase : Text → Text} {inserts : List RowValues} {loaded : LoadedRows}

theorem gives_of_sentRow {values : RowValues} {set : List Text} {tuple : Text → Text}
    (h : ∀ col ∈ set, sentRow toLowerCase values col = some (tuple col)) :
    Gives toLowerCase values set (set.map tuple) := by
  unfold Gives
  rw [List.forall₂_map_right_iff, List.forall₂_same]
  intro col hcol
  obtain ⟨p, hfind, hvalue⟩ := Option.bind_eq_some_iff.mp (h col hcol)
  refine ⟨p.1, ?_, by simpa using List.find?_some hfind⟩
  rw [← hvalue]
  exact List.mem_of_find?_eq_some hfind

theorem Gives.of_subset {values more : RowValues} {set tuple : List Text} (h : Gives toLowerCase values set tuple)
    (hsub : values ⊆ more) : Gives toLowerCase more set tuple :=
  List.Forall₂.imp (fun _ _ ⟨key, hkey, hname⟩ ↦ ⟨key, hsub hkey, hname⟩) h

theorem sentValues_subset (pk : List Text) (mode : PkMode) (values : RowValues) :
    sentValues toLowerCase pk mode values ⊆ values := by
  unfold sentValues
  split_ifs
  · exact List.filter_subset_self _
  · exact List.Subset.refl _

/-- Where the key is sent, the insert keeps it. -/
theorem keep_of_sentRow {pk : List Text} {mode : PkMode} {values : RowValues} {col v : Text} (hcol : col ∈ pk)
    (h : sentRow toLowerCase (sentValues toLowerCase pk mode values) col = some v) : mode = .keep := by
  cases mode with
  | keep => rfl
  | generate =>
    obtain ⟨p, hfind, -⟩ := Option.bind_eq_some_iff.mp h
    have hname : toLowerCase p.1 = toLowerCase col := by simpa using List.find?_some hfind
    have hother := (List.mem_filter.mp (List.mem_of_find?_eq_some hfind)).2
    exact absurd (hname ▸ List.mem_map_of_mem hcol) (of_decide_eq_true hother)

theorem shows_of_shownRow {columns : List Text} {row : List Cell} {set : List Text} {tuple : Text → Text}
    (h : ∀ col ∈ set, shownRow toLowerCase columns row col = some (tuple col)) :
    Shows toLowerCase columns row set (set.map tuple) := by
  unfold Shows
  rw [List.forall₂_map_right_iff, List.forall₂_same]
  intro col hcol
  obtain ⟨i, hi, hvalue⟩ := Option.bind_eq_some_iff.mp (h col hcol)
  exact ⟨i, loadedIndex_eq_some_iff.mp hi, Option.join_eq_some_iff.mp hvalue⟩

/-- The rows that an insert can meet: those on screen and those of the other inserts. -/
def Meets (toLowerCase : Text → Text) (inserts : List RowValues) (loaded : LoadedRows) (keys : Keys)
    (pkModeOf : ℕ → PkMode) (i : ℕ) (other : VisibleRow) : Prop :=
  (∃ row ∈ loaded.rows, other = shownRow toLowerCase loaded.columns row) ∨
    ∃ j values, j ≠ i ∧ inserts[j]? = some values ∧
      other = sentRow toLowerCase (sentValues toLowerCase keys.pk (pkModeOf j) values)

/-- An insert that meets a row with one of its keys clashes. -/
theorem clashes_of_violates {keys : Keys} {pkModeOf : ℕ → PkMode} {i : ℕ} {values : RowValues}
    (hvalues : inserts[i]? = some values) {set : List Text} {other : VisibleRow}
    (hother : Meets toLowerCase inserts loaded keys pkModeOf i other) {checked : ℕ → Prop}
    (hchecked : ∀ j sent, (∃ col ∈ set, ∃ v, sentRow toLowerCase (sentValues toLowerCase keys.pk (pkModeOf j) sent) col =
      some v) → checked j)
    (hviolates : Violates set (sentRow toLowerCase (sentValues toLowerCase keys.pk (pkModeOf i) values)) other) :
    Clashes toLowerCase inserts loaded set checked i := by
  obtain ⟨hset, hall⟩ := hviolates
  obtain ⟨first, hfirst⟩ := List.exists_mem_of_ne_nil set hset
  have hchoice : ∃ tuple : Text → Text, ∀ col ∈ set,
      sentRow toLowerCase (sentValues toLowerCase keys.pk (pkModeOf i) values) col = some (tuple col) ∧
        other col = some (tuple col) := by
    choose! tuple htuple using hall
    exact ⟨tuple, htuple⟩
  obtain ⟨tuple, htuple⟩ := hchoice
  have hgives := (gives_of_sentRow fun col hcol ↦ (htuple col hcol).1).of_subset (sentValues_subset _ _ _)
  refine ⟨hchecked i values ⟨first, hfirst, _, (htuple first hfirst).1⟩, values, set.map tuple, hvalues, hgives, ?_⟩
  rcases hother with ⟨row, hrow, rfl⟩ | ⟨j, sent, hj, hsent, rfl⟩
  · exact .inr ⟨row, hrow, shows_of_shownRow fun col hcol ↦ (htuple col hcol).2⟩
  · exact .inl ⟨j, sent, hj, hchecked j sent ⟨first, hfirst, _, (htuple first hfirst).2⟩, hsent,
      (gives_of_sentRow fun col hcol ↦ (htuple col hcol).2).of_subset (sentValues_subset _ _ _)⟩

end

/-- Two inserts with one key, spelled in other letters. -/
def twoInserts : List RowValues := [[("id".toList, some "1".toList)], [("ID".toList, some "1".toList)]]

end Squaero.Front.RowPaste
