import Mathlib.Data.List.Find
import Squaero.Front.ResultCompare
import Squaero.Lib.JsArith
import Squaero.Lib.Traversal

/-!
# Data sync

`diffData` and `diffToPlan` of `frontend/src/utils/dataDiff.ts`: the rows of two tables are compared by primary key, and
a plan of inserts, updates and deletes makes the target match the source. Run on the target the plan goes through and
does what the ticked kinds of operation say, and with all of them a second comparison finds nothing to do.
-/

namespace Squaero.Front.DataSync

open Squaero.Lib Squaero.Front.Compare

/-- A row as an object: none where it has no such property. -/
abbrev Rec := Text → Option Cell

/-- One record of `toRecords`: a name that two columns share has the value of the last. -/
def toRecord (columns : List ResultColumn) (row : List Cell) : Rec := fun name ↦
  (columns.zipIdx.reverse.find? fun c ↦ c.1.name = name).map fun c ↦ row[c.2]?.join

/-- `keyOf`: what is `undefined` joins as the empty text. -/
def recordKey (rec : Rec) (pk : List Text) : Text := Compare.keyOf (pk.map fun k ↦ (rec k).getD (some []))

def pkOf (rec : Rec) (pk : List Text) : RowValues := pk.eraseDups.map fun k ↦ (k, (rec k).join)

def canonDecimal (s : Text) : Option Text :=
  let t := jsTrim s
  if isDecimal t then
    let int := if (wholePart t).dropWhile (· = '0') = [] then ['0'] else (wholePart t).dropWhile (· = '0')
    let frac := (fractionPart t).rdropWhile (· = '0')
    let negative := t.head? = some '-' ∧ (int ≠ ['0'] ∨ frac ≠ [])
    some ((if negative then ['-'] else []) ++ int ++ if frac ≠ [] then '.' :: frac else [])
  else none

/-- `isNumericType` -/
def isNumericType (type : Text) : Bool := classifyType type = .number

/-- `Number.isFinite(na) && na === nb` -/
def sameFinite : JsNum → JsNum → Bool
  | .finite negative m, .finite negative' m' => m.signed negative = m'.signed negative'
  | _, _ => false

def sameValue (a b : Cell) (type : Text) : Bool :=
  if a = b then true
  else
    match a, b with
    | some a, some b =>
      if isNumericType type then
        match canonDecimal a, canonDecimal b with
        | some ca, some cb => ca = cb
        | _, _ => jsTrim a ≠ [] && jsTrim b ≠ [] && sameFinite (numberOf a) (numberOf b)
      else false
    | _, _ => false

structure RowUpdate where
  set : RowValues
  where_ : RowValues
  deriving DecidableEq

structure DataDiff where
  inserts : List RowValues
  updates : List RowUpdate
  deletes : List RowValues
  deriving DecidableEq

structure SyncOps where
  insert : Bool
  update : Bool
  delete : Bool

def pickOps (d : DataDiff) (ops : SyncOps) : DataDiff where
  inserts := if ops.insert then d.inserts else []
  updates := if ops.update then d.updates else []
  deletes := if ops.delete then d.deletes else []

/-- `map.set(key, value)` -/
def mapSet (map : List (Text × Rec)) (entry : Text × Rec) : List (Text × Rec) :=
  if entry.1 ∈ map.map Prod.fst then map.map fun e ↦ if e.1 = entry.1 then entry else e else map ++ [entry]

/-- `new Map(toRecords(rs).map((r) => [keyOf(r, pk), r]))`, in the order of its keys. -/
def byKey (rs : Compare.ResultSet) (pk : List Text) : List (Text × Rec) :=
  (rs.rows.map fun row ↦ (recordKey (toRecord rs.columns row) pk, toRecord rs.columns row)).foldl mapSet []

/-- `typeOf.get(c)`: a name that two columns share has the type of the last. -/
def typeOf (columns : List ResultColumn) (c : Text) : Text := ((columns.reverse.find? (·.name = c)).map (·.type)).getD []

def diffData (source target : Compare.ResultSet) (pk : List Text) : Except Text DataDiff :=
  if source.truncated ∨ target.truncated then
    .error "data diff needs every row of both tables, not a page".toList
  else
    let cols := (source.columns.map (·.name)).eraseDups
    let nonKey := cols.filter (· ∉ pk)
    let srcByKey := byKey source pk
    let tgtByKey := byKey target pk
    let changed (rec t : Rec) : List Text :=
      nonKey.filter fun c ↦ !sameValue (rec c).join (t c).join (typeOf source.columns c)
    .ok
      { inserts := srcByKey.filterMap fun e ↦
          if (tgtByKey.lookup e.1).isNone then some (cols.map fun c ↦ (c, (e.2 c).join)) else none
        updates := srcByKey.filterMap fun e ↦
          (tgtByKey.lookup e.1).bind fun t ↦
            if changed e.2 t = [] then none
            else some ⟨(changed e.2 t).map fun c ↦ (c, (e.2 c).join), pkOf e.2 pk⟩
        deletes := tgtByKey.filterMap fun e ↦ if (srcByKey.lookup e.1).isNone then some (pkOf e.2 pk) else none }

/-- `typesFor` of `diffToPlan`. -/
def planTypes (types : Text → Option Text) (cols : List Text) : ColumnTypes :=
  cols.filterMap fun c ↦ (types c).bind fun type ↦ if type = [] then none else some (c, type)

/-- `diffToPlan`: the inserts, the updates and then the deletes. -/
def diffToPlan (diff : DataDiff) (types : Text → Option Text) : List PlanItem :=
  diff.inserts.map (fun values ↦ .insert values (some (planTypes types (values.map Prod.fst))) none) ++
    diff.updates.map (fun u ↦ .update u.set u.where_ (some (planTypes types (u.set.map Prod.fst)))) ++
    diff.deletes.map .delete

/-! ## Records and rows -/

theorem find?_eq_of_unique {α : Type} {p : α → Bool} {l : List α} {x : α} (hx : x ∈ l) (hp : p x = true)
    (hunique : ∀ y ∈ l, p y = true → y = x) : l.find? p = some x := by
  obtain ⟨y, hy⟩ := Option.isSome_iff_exists.mp (List.find?_isSome.mpr ⟨x, hx, hp⟩)
  rw [hy, hunique y (List.mem_of_find?_eq_some hy) (List.find?_some hy)]

/-- Of columns with different names a record has the cells that the row has. -/
theorem toRecord_eq {columns : List ResultColumn} (hnames : (columns.map (·.name)).Nodup) (row : List Cell) (name : Text) :
    toRecord columns row name =
      if name ∈ columns.map (·.name) then some (rowOf columns row name) else none := by
  split_ifs with hname
  · obtain ⟨c, hc, rfl⟩ := List.mem_map.mp hname
    obtain ⟨i, hi, hci⟩ := List.mem_iff_getElem.mp hc
    have hzip : (c, i) ∈ columns.zipIdx := List.mk_mem_zipIdx_iff_getElem?.mpr (List.getElem?_eq_some_iff.mpr ⟨hi, hci⟩)
    have hfind : columns.zipIdx.reverse.find? (fun e ↦ e.1.name = c.name) = some (c, i) := by
      refine find?_eq_of_unique (List.mem_reverse.mpr hzip) (by simp) fun e he hname ↦ ?_
      have hget := List.mk_mem_zipIdx_iff_getElem?.mp (List.mem_reverse.mp he)
      obtain ⟨hj, hej⟩ := List.getElem?_eq_some_iff.mp hget
      have hsame : e.2 = i := by
        refine (List.nodup_iff_injective_get.mp hnames |>.eq_iff (a := ⟨e.2, by simpa using hj⟩)
          (b := ⟨i, by simpa using hi⟩)).mp ?_ |> Fin.mk.inj_iff.mp
        simpa [hej, hci] using hname
      exact Prod.ext (by rw [← hej, ← hci]; simp [hsame]) hsame
    have hidx : columns.findIdx? (·.name = c.name) = some i := by
      rw [List.findIdx?_eq_some_iff_getElem]
      refine ⟨hi, by simp [hci], fun j hj ↦ ?_⟩
      have hne := (List.pairwise_iff_getElem.mp hnames) j i (by simp; omega) (by simpa using hi) hj
      simpa [hci] using hne
    rw [toRecord, hfind, rowOf, hidx]
    rfl
  · have hfind : columns.zipIdx.reverse.find? (fun e ↦ e.1.name = name) = none := by
      refine List.find?_eq_none.mpr fun e he ↦ ?_
      have hget := List.mk_mem_zipIdx_iff_getElem?.mp (List.mem_reverse.mp he)
      simp only [decide_eq_true_eq]
      exact fun heq ↦ hname (List.mem_map.mpr ⟨e.1, List.mem_of_getElem? hget, heq⟩)
    rw [toRecord, hfind]
    rfl

theorem join_toRecord {columns : List ResultColumn} (hnames : (columns.map (·.name)).Nodup) (row : List Cell) (name : Text) :
    (toRecord columns row name).join = rowOf columns row name := by
  rw [toRecord_eq hnames]
  split_ifs with hname
  · rfl
  · have hidx : columns.findIdx? (·.name = name) = none := by
      rw [List.findIdx?_eq_none_iff]
      intro c hc
      simp only [decide_eq_false_iff_not]
      exact fun heq ↦ hname (List.mem_map.mpr ⟨c, hc, heq⟩)
    rw [rowOf, hidx]
    rfl

theorem recordKey_toRecord {columns : List ResultColumn} (hnames : (columns.map (·.name)).Nodup) {pk : List Text}
    (hpk : ∀ k ∈ pk, k ∈ columns.map (·.name)) (row : List Cell) :
    recordKey (toRecord columns row) pk = Compare.keyOf (Front.keyOf pk (rowOf columns row)) := by
  unfold recordKey Front.keyOf
  refine congrArg Compare.keyOf (List.map_congr_left fun k hk ↦ ?_)
  rw [toRecord_eq hnames, if_pos (hpk k hk), Option.getD_some]

/-- A key whose values are all there, as texts without NUL. -/
def IsKeyText (tuple : List Cell) : Prop := ∀ cell ∈ tuple, ∃ text, cell = some text ∧ '\x00' ∉ text

theorem split_at_nul {a b x y : Text} (ha : '\x00' ∉ a) (hb : '\x00' ∉ b) (h : a ++ '\x00' :: x = b ++ '\x00' :: y) :
    a = b ∧ x = y := by
  induction a generalizing b with
  | nil =>
    cases b with
    | nil => simpa using h
    | cons d b => exact absurd (List.mem_cons_self) ((List.cons.inj h).1 ▸ hb)
  | cons c a ih =>
    cases b with
    | nil => exact absurd (List.mem_cons_self) ((List.cons.inj h).1 ▸ ha)
    | cons d b =>
      obtain ⟨rfl, hrest⟩ := List.cons.inj h
      obtain ⟨rfl, rfl⟩ := ih (List.not_mem_of_not_mem_cons ha) (List.not_mem_of_not_mem_cons hb) hrest
      exact ⟨rfl, rfl⟩

theorem intercalate_inj {parts others : List Text} (hlength : parts.length = others.length)
    (hparts : ∀ text ∈ parts, '\x00' ∉ text) (hothers : ∀ text ∈ others, '\x00' ∉ text)
    (h : keySeparator.intercalate parts = keySeparator.intercalate others) : parts = others := by
  induction parts generalizing others with
  | nil => exact (List.length_eq_zero_iff.mp hlength.symm).symm
  | cons text parts ih =>
    obtain ⟨other, others, rfl⟩ := List.exists_cons_of_length_eq_add_one hlength.symm
    have hshort : parts.length = others.length := by simpa using hlength
    rw [List.forall_mem_cons] at hparts hothers
    cases parts with
    | nil =>
      obtain rfl := List.length_eq_zero_iff.mp hshort.symm
      simpa using h
    | cons second parts =>
      obtain ⟨second', others, rfl⟩ := List.exists_cons_of_length_eq_add_one hshort.symm
      rw [List.intercalate_cons_cons, List.intercalate_cons_cons, keySeparator, List.append_assoc, List.append_assoc,
        List.singleton_append, List.singleton_append] at h
      obtain ⟨rfl, hrest⟩ := split_at_nul hparts.1 hothers.1 h
      rw [ih hshort hparts.2 hothers.2 hrest]

/-- Keys with one text are one key. -/
theorem keyOf_inj {tuple other : List Cell} (hlength : tuple.length = other.length) (htuple : IsKeyText tuple)
    (hother : IsKeyText other) (h : Compare.keyOf tuple = Compare.keyOf other) : tuple = other := by
  have htexts {t : List Cell} (ht : IsKeyText t) : (∀ text ∈ t.map (·.getD nullKey), '\x00' ∉ text) ∧
      (t.map (·.getD nullKey)).map some = t := by
    constructor
    · intro text htext
      obtain ⟨cell, hcell, rfl⟩ := List.mem_map.mp htext
      obtain ⟨text, rfl, hnul⟩ := ht cell hcell
      exact hnul
    · rw [List.map_map]
      refine (List.map_congr_left fun cell hcell ↦ ?_).trans (List.map_id t)
      obtain ⟨text, rfl, -⟩ := ht cell hcell
      rfl
  have hparts := intercalate_inj (by simpa using hlength) (htexts htuple).1 (htexts hother).1 h
  rw [← (htexts htuple).2, hparts, (htexts hother).2]

/-! ## Two tables that can be compared -/

variable {source target : Compare.ResultSet} {pk : List Text}

def rowsOf (rs : Compare.ResultSet) : List Row := rs.rows.map (rowOf rs.columns)

/-- Both tables were read whole, with different names for their columns, and have a primary key whose values are all there
and tell the rows of either apart. -/
structure Comparable (source target : Compare.ResultSet) (pk : List Text) : Prop where
  whole : source.truncated = false ∧ target.truncated = false
  sourceNames : (source.columns.map (·.name)).Nodup
  targetNames : (target.columns.map (·.name)).Nodup
  inSource : ∀ k ∈ pk, k ∈ source.columns.map (·.name)
  inTarget : ∀ k ∈ pk, k ∈ target.columns.map (·.name)
  sourceKeys : ((rowsOf source).map (Front.keyOf pk)).Nodup
  targetKeys : ((rowsOf target).map (Front.keyOf pk)).Nodup
  sourceTexts : ∀ row ∈ rowsOf source, IsKeyText (Front.keyOf pk row)
  targetTexts : ∀ row ∈ rowsOf target, IsKeyText (Front.keyOf pk row)

/-- Entries with different keys are in the map as they come. -/
theorem foldl_mapSet {entries map : List (Text × Rec)} (h : ((map ++ entries).map Prod.fst).Nodup) :
    entries.foldl mapSet map = map ++ entries := by
  induction entries generalizing map with
  | nil => simp
  | cons e entries ih =>
    have hnew : e.1 ∉ map.map Prod.fst := by
      rw [List.map_append, List.map_cons, List.nodup_append] at h
      exact fun hmem ↦ h.2.2 _ hmem _ List.mem_cons_self rfl
    rw [List.foldl_cons, mapSet, if_neg hnew, ih (by simpa using h), List.append_assoc, List.singleton_append]

theorem lookup_map {α β : Type} (f : α → Text) (g : α → β) (l : List α) (k : Text) :
    (l.map fun x ↦ (f x, g x)).lookup k = (l.find? fun x ↦ f x = k).map g := by
  induction l with
  | nil => rfl
  | cons x l ih =>
    rw [List.map_cons, List.lookup_cons, ih]
    by_cases hx : f x = k
    · simp [hx]
    · have hx' : (k == f x) = false := by simpa using Ne.symm hx
      rw [hx', List.find?_cons_of_neg (by simpa using hx)]

section

variable (source target : Compare.ResultSet) (pk : List Text)

/-- The row of a table that has the key of this one. -/
def counterpart (row : Row) : Option Row := (rowsOf target).find? fun t ↦ Front.keyOf pk t = Front.keyOf pk row

/-- The columns outside the key where a row of the target does not have the value of the source's. -/
def differing (s t : Row) : List Text :=
  (source.columns.map (·.name)).filter fun c ↦ c ∉ pk ∧ sameValue (s c) (t c) (typeOf source.columns c) = false

def valuesOf (row : Row) : RowValues := source.columns.map fun c ↦ (c.name, row c.name)

/-- The rows of the source whose key the target does not have. -/
def newValues : List RowValues :=
  (rowsOf source).filterMap fun s ↦ if (counterpart target pk s).isNone then some (valuesOf source s) else none

def rowUpdate (s t : Row) : Option RowUpdate :=
  if differing source pk s t = [] then none
  else some ⟨(differing source pk s t).map fun c ↦ (c, s c), keyWhere pk.eraseDups s⟩

def rowUpdates : List RowUpdate :=
  (rowsOf source).filterMap fun s ↦ (counterpart target pk s).bind (rowUpdate source pk s)

/-- The keys of the rows of the target that the source does not have. -/
def goneKeys : List RowValues :=
  (rowsOf target).filterMap fun t ↦
    if (counterpart source pk t).isNone then some (keyWhere pk.eraseDups t) else none

end

theorem eraseDups_of_nodup {names : List Text} (h : names.Nodup) : names.eraseDups = names := by
  induction names with
  | nil => rfl
  | cons name names ih =>
    rw [List.nodup_cons] at h
    have hfilter : names.filter (fun other ↦ !other == name) = names := by
      refine List.filter_eq_self.mpr fun other hother ↦ ?_
      simpa using fun heq : other = name ↦ h.1 (heq ▸ hother)
    rw [List.eraseDups_cons, hfilter, ih h.2]

theorem byKey_eq {rs : Compare.ResultSet} (hnames : (rs.columns.map (·.name)).Nodup)
    (hpk : ∀ k ∈ pk, k ∈ rs.columns.map (·.name)) (hkeys : ((rowsOf rs).map (Front.keyOf pk)).Nodup)
    (htexts : ∀ row ∈ rowsOf rs, IsKeyText (Front.keyOf pk row)) :
    byKey rs pk = rs.rows.map fun row ↦ (recordKey (toRecord rs.columns row) pk, toRecord rs.columns row) := by
  refine foldl_mapSet (List.nil_append _ |>.symm ▸ ?_)
  rw [List.map_map]
  have hcompare : rs.rows.map (Prod.fst ∘ fun row ↦ (recordKey (toRecord rs.columns row) pk, toRecord rs.columns row)) =
      ((rowsOf rs).map (Front.keyOf pk)).map Compare.keyOf := by
    rw [rowsOf, List.map_map, List.map_map]
    exact List.map_congr_left fun row _ ↦ recordKey_toRecord hnames hpk row
  rw [hcompare]
  refine hkeys.map_on fun tuple htuple other hother heq ↦ ?_
  obtain ⟨row, hrow, rfl⟩ := List.mem_map.mp htuple
  obtain ⟨row', hrow', rfl⟩ := List.mem_map.mp hother
  exact keyOf_inj (by simp [Front.keyOf]) (htexts row hrow) (htexts row' hrow') heq

/-- Looking up the key of a row finds the record of its counterpart. -/
theorem lookup_byKey {rs : Compare.ResultSet} (hnames : (rs.columns.map (·.name)).Nodup)
    (hpk : ∀ k ∈ pk, k ∈ rs.columns.map (·.name)) (hkeys : ((rowsOf rs).map (Front.keyOf pk)).Nodup)
    (htexts : ∀ row ∈ rowsOf rs, IsKeyText (Front.keyOf pk row)) {row : Row} (hrow : IsKeyText (Front.keyOf pk row)) :
    ∃ found : Option (List Cell), (byKey rs pk).lookup (Compare.keyOf (Front.keyOf pk row)) = found.map (toRecord rs.columns) ∧
      counterpart rs pk row = found.map (rowOf rs.columns) := by
  refine ⟨rs.rows.find? fun r ↦ Front.keyOf pk (rowOf rs.columns r) = Front.keyOf pk row, ?_, ?_⟩
  · rw [byKey_eq hnames hpk hkeys htexts, lookup_map]
    refine congrArg (Option.map _) (List.find?_congr fun r hr ↦ ?_)
    rw [recordKey_toRecord hnames hpk, Bool.eq_iff_iff, decide_eq_true_eq, decide_eq_true_eq]
    refine ⟨keyOf_inj (by simp [Front.keyOf]) (htexts _ (List.mem_map_of_mem hr)) hrow, fun heq ↦ by rw [heq]⟩
  · rw [counterpart, rowsOf, List.find?_map]
    rfl

/-- What the comparison finds, row by row. -/
theorem diffData_eq (h : Comparable source target pk) :
    diffData source target pk =
      .ok ⟨newValues source target pk, rowUpdates source target pk, goneKeys source target pk⟩ := by
  have hwhole : ¬ (source.truncated = true ∨ target.truncated = true) := by simp [h.whole]
  have hsource := byKey_eq h.sourceNames h.inSource h.sourceKeys h.sourceTexts
  have htarget := byKey_eq h.targetNames h.inTarget h.targetKeys h.targetTexts
  have hpkOf {columns : List ResultColumn} (hnames : (columns.map (·.name)).Nodup) (row : List Cell) :
      pkOf (toRecord columns row) pk = keyWhere pk.eraseDups (rowOf columns row) := by
    simp only [pkOf, keyWhere, join_toRecord hnames]
  rw [diffData, if_neg hwhole]
  simp only [Except.ok.injEq, DataDiff.mk.injEq, eraseDups_of_nodup h.sourceNames]
  refine ⟨?_, ?_, ?_⟩
  · rw [hsource, newValues, rowsOf, List.filterMap_map, List.filterMap_map]
    refine List.filterMap_congr fun row hrow ↦ ?_
    obtain ⟨found, hlookup, hcounterpart⟩ :=
      lookup_byKey h.targetNames h.inTarget h.targetKeys h.targetTexts (h.sourceTexts _ (List.mem_map_of_mem hrow))
    simp only [Function.comp_apply, recordKey_toRecord h.sourceNames h.inSource, hlookup, hcounterpart,
      Option.isNone_map, join_toRecord h.sourceNames, valuesOf, List.map_map]
    rfl
  · rw [hsource, rowUpdates, rowsOf, List.filterMap_map, List.filterMap_map]
    refine List.filterMap_congr fun row hrow ↦ ?_
    obtain ⟨found, hlookup, hcounterpart⟩ :=
      lookup_byKey h.targetNames h.inTarget h.targetKeys h.targetTexts (h.sourceTexts _ (List.mem_map_of_mem hrow))
    simp only [Function.comp_apply, recordKey_toRecord h.sourceNames h.inSource, hlookup, hcounterpart]
    cases found with
    | none => rfl
    | some t =>
      have hchanged : ((source.columns.map (·.name)).filter (· ∉ pk)).filter (fun c ↦
          !sameValue (rowOf source.columns row c) (rowOf target.columns t c) (typeOf source.columns c)) =
          differing source pk (rowOf source.columns row) (rowOf target.columns t) := by
        rw [List.filter_filter, differing]
        exact List.filter_congr fun c _ ↦ by simp [Bool.and_comm]
      simp only [Option.map_some, Option.bind_some, join_toRecord h.sourceNames, join_toRecord h.targetNames, hchanged,
        rowUpdate, hpkOf h.sourceNames]
  · rw [htarget, goneKeys, rowsOf, List.filterMap_map, List.filterMap_map]
    refine List.filterMap_congr fun row hrow ↦ ?_
    obtain ⟨found, hlookup, hcounterpart⟩ :=
      lookup_byKey h.sourceNames h.inSource h.sourceKeys h.sourceTexts (h.targetTexts _ (List.mem_map_of_mem hrow))
    simp only [Function.comp_apply, recordKey_toRecord h.targetNames h.inTarget, hlookup, hcounterpart,
      Option.isNone_map, hpkOf h.targetNames]

/-! ## Running the plan -/

section

variable (source target : Compare.ResultSet) (pk : List Text) (fill : List Row → RowValues → Row)

/-- A row of the target with the values of its counterpart where they differ. -/
def repaired (row : Row) : Row :=
  (counterpart source pk row).elim row fun s ↦ fun c ↦ if c ∈ differing source pk s row then s c else row c

/-- The target behind the kinds of operation that were ticked. -/
def synced (ops : SyncOps) : List Row :=
  let grown := addRows fill (rowsOf target) (if ops.insert then newValues source target pk else [])
  let mended := if ops.update then grown.map (repaired source pk) else grown
  if ops.delete then mended.filter fun row ↦ (counterpart source pk row).isSome else mended

end

/-- What a table stores for an insert has the values that the insert names. -/
def Stores (fill : List Row → RowValues → Row) : Prop :=
  ∀ table values column value, values.lookup column = some value → fill table values column = value

variable {fill : List Row → RowValues → Row}

theorem lookup_valuesOf {columns : List ResultColumn} {name : Text} (hname : name ∈ columns.map (·.name)) (row : Row) :
    (columns.map fun c ↦ (c.name, row c.name)).lookup name = some (row name) := by
  rw [lookup_map (fun c : ResultColumn ↦ c.name) (fun c ↦ row c.name)]
  obtain ⟨c, hc, rfl⟩ := List.mem_map.mp hname
  obtain ⟨d, hd⟩ := Option.isSome_iff_exists.mp (List.find?_isSome (p := fun d : ResultColumn ↦ d.name = c.name).mpr
    ⟨c, hc, by simp⟩)
  have hsame : d.name = c.name := by simpa using List.find?_some hd
  rw [hd, Option.map_some, hsame]

theorem keyOf_fill (hfill : Stores fill) (h : Comparable source target pk) (table : List Row) (s : Row) :
    Front.keyOf pk (fill table (valuesOf source s)) = Front.keyOf pk s :=
  List.map_congr_left fun k hk ↦ hfill _ _ _ _ (lookup_valuesOf (h.inSource k hk) s)

/-- Of rows with different keys the one with a key is its own counterpart. -/
theorem counterpart_eq_some_iff {rs : Compare.ResultSet} (hkeys : ((rowsOf rs).map (Front.keyOf pk)).Nodup) {row t : Row} :
    counterpart rs pk row = some t ↔ t ∈ rowsOf rs ∧ Front.keyOf pk t = Front.keyOf pk row := by
  constructor
  · intro hfound
    exact ⟨List.mem_of_find?_eq_some hfound, by simpa using List.find?_some hfound⟩
  · rintro ⟨hmem, hkey⟩
    refine find?_eq_of_unique hmem (by simp [hkey]) fun other hother hsame ↦ ?_
    exact List.inj_on_of_nodup_map hkeys hother hmem ((of_decide_eq_true hsame).trans hkey.symm)

theorem counterpart_eq_none_iff {rs : Compare.ResultSet} {row : Row} :
    counterpart rs pk row = none ↔ Front.keyOf pk row ∉ (rowsOf rs).map (Front.keyOf pk) := by
  simp [counterpart, List.find?_eq_none]

theorem counterpart_congr {rs : Compare.ResultSet} {row other : Row} (hkey : Front.keyOf pk row = Front.keyOf pk other) :
    counterpart rs pk row = counterpart rs pk other := by
  rw [counterpart, hkey, counterpart]

/-- The rows that inserts leave: those of the table, and for each insert a row with its values. -/
theorem addRows_eq_map (fill : List Row → RowValues → Row) (table : List Row) (values : List RowValues) :
    ∃ rows : List Row, addRows fill table values = table ++ rows ∧
      List.Forall₂ (fun row vs ↦ ∃ before, row = fill before vs) rows values := by
  induction values generalizing table with
  | nil => exact ⟨[], by simp [addRows], .nil⟩
  | cons vs values ih =>
    obtain ⟨rows, hrows, hall⟩ := ih (table ++ [fill table vs])
    exact ⟨fill table vs :: rows, by simpa [addRows] using hrows, .cons ⟨table, rfl⟩ hall⟩

/-- The rows of the source whose key the target does not have. -/
def newRows (source target : Compare.ResultSet) (pk : List Text) : List Row :=
  (rowsOf source).filter fun s ↦ (counterpart target pk s).isNone

theorem newValues_eq (source target : Compare.ResultSet) (pk : List Text) :
    newValues source target pk = (newRows source target pk).map (valuesOf source) := by
  unfold newValues newRows
  induction rowsOf source with
  | nil => rfl
  | cons s rows ih =>
    rw [List.filterMap_cons, List.filter_cons, ih]
    split_ifs <;> rfl

/-- The target with rows for some of the source's that it lacks. -/
structure Grown (source target : Compare.ResultSet) (pk : List Text) (table : List Row) : Prop where
  keys : (table.map (Front.keyOf pk)).Nodup
  old : ∀ t ∈ rowsOf target, t ∈ table
  split : ∀ row ∈ table, row ∈ rowsOf target ∨ counterpart target pk row = none ∧
    ∃ s ∈ rowsOf source, Front.keyOf pk row = Front.keyOf pk s ∧
      ∀ c ∈ source.columns.map (·.name), row c = s c

theorem grown_addRows (hfill : Stores fill) (h : Comparable source target pk) {news : List Row}
    (hnews : news.Sublist (newRows source target pk)) :
    Grown source target pk (addRows fill (rowsOf target) (news.map (valuesOf source))) := by
  obtain ⟨rows, hrows, hall⟩ := addRows_eq_map fill (rowsOf target) (news.map (valuesOf source))
  rw [List.forall₂_map_right_iff] at hall
  have hkeys : rows.map (Front.keyOf pk) = news.map (Front.keyOf pk) := by
    clear hrows hnews
    induction hall with
    | nil => rfl
    | cons hrow _ ih =>
      obtain ⟨before, rfl⟩ := hrow
      rw [List.map_cons, List.map_cons, keyOf_fill hfill h, ih]
  have hnew : ∀ s ∈ news, s ∈ rowsOf source ∧ counterpart target pk s = none := by
    intro s hs
    obtain ⟨hmem, hnone⟩ := List.mem_filter.mp (hnews.subset hs)
    exact ⟨hmem, Option.isNone_iff_eq_none.mp hnone⟩
  have hfresh : ∀ key ∈ rows.map (Front.keyOf pk), key ∉ (rowsOf target).map (Front.keyOf pk) := by
    intro key hkey
    rw [hkeys] at hkey
    obtain ⟨s, hs, rfl⟩ := List.mem_map.mp hkey
    exact counterpart_eq_none_iff.mp (hnew s hs).2
  rw [hrows]
  constructor
  · rw [List.map_append, List.nodup_append]
    refine ⟨h.targetKeys, ?_, fun key hkey other hother heq ↦ hfresh other hother (heq ▸ hkey)⟩
    rw [hkeys]
    exact h.sourceKeys.sublist ((hnews.trans List.filter_sublist).map _)
  · exact fun t ht ↦ List.mem_append_left _ ht
  · intro row hrow
    refine (List.mem_append.mp hrow).imp id fun hrow ↦ ?_
    have hmem := List.mem_map_of_mem (f := Front.keyOf pk) hrow
    refine ⟨counterpart_eq_none_iff.mpr (hfresh _ hmem), ?_⟩
    obtain ⟨s, hs, before, rfl⟩ := Traversal.exists_of_mem_right hall.flip hrow
    exact ⟨s, (hnew s hs).1, keyOf_fill hfill h before s, fun c hc ↦ hfill _ _ _ _ (lookup_valuesOf hc s)⟩

/-- Inserts go through while the keys stay different. -/
theorem runPlan_inserts (values : List RowValues) (table : List Row)
    (hkeys : ((addRows fill table values).map (Front.keyOf pk)).Nodup) (item : RowValues → PlanItem)
    (hitem : ∀ vs, ∃ setTypes, item vs = .insert vs setTypes none) :
    runPlan pk fill table (values.map item) = some (addRows fill table values) := by
  induction values generalizing table with
  | nil => rfl
  | cons vs values ih =>
    obtain ⟨setTypes, hvs⟩ := hitem vs
    have hgrown : (table ++ [fill table vs]) <+: addRows fill table (vs :: values) :=
      prefix_addRows (table ++ [fill table vs]) values
    have hnodup : ((table ++ [fill table vs]).map (Front.keyOf pk)).Nodup :=
      hkeys.sublist (hgrown.sublist.map _)
    have hstep : runItem pk fill table (item vs) = some (table ++ [fill table vs]) := by
      rw [hvs]
      exact KeyedRows.insert_of_nodup (Front.keyOf pk) hnodup
    exact runPlan_cons_iff.mpr ⟨_, hstep, ih _ hkeys⟩

/-- The key that a map of a row's key names. -/
def namedKey (pk : List Text) (where_ : RowValues) : List Cell := pk.map fun k ↦ (where_.lookup k).join

theorem namedKey_keyWhere (pk : List Text) (row : Row) : namedKey pk (keyWhere pk.eraseDups row) = Front.keyOf pk row := by
  refine List.map_congr_left fun k hk ↦ ?_
  have hfind : pk.eraseDups.find? (fun col ↦ col = k) = some k :=
    find?_eq_of_unique (List.mem_eraseDups.mpr hk) (by simp) fun other _ hother ↦ of_decide_eq_true hother
  rw [keyWhere, lookup_map (fun col ↦ col) row, hfind]
  rfl

theorem matchesWhere_eraseDups (pk : List Text) (s row : Row) :
    matchesWhere (keyWhere pk.eraseDups s) row = true ↔ Front.keyOf pk row = Front.keyOf pk s := by
  rw [matchesWhere_keyWhere]
  simp [Front.keyOf, List.map_inj_left, List.mem_eraseDups]

/-- What is kept of rows with different keys names different keys. -/
theorem sublist_named {α : Type} {rows : List Row} {pick : Row → Option α} {named : α → List Cell}
    (h : ∀ row ∈ rows, ∀ x ∈ pick row, named x = Front.keyOf pk row) :
    ((rows.filterMap pick).map named).Sublist (rows.map (Front.keyOf pk)) := by
  induction rows with
  | nil => exact .slnil
  | cons row rows ih =>
    rw [List.forall_mem_cons] at h
    rw [List.filterMap_cons]
    cases hpick : pick row with
    | none => exact (ih h.2).cons _
    | some x =>
      rw [List.map_cons, List.map_cons, h.1 x hpick]
      exact (ih h.2).cons_cons _

theorem mem_rowUpdates {u : RowUpdate} (h : Comparable source target pk) (hu : u ∈ rowUpdates source target pk) :
    ∃ s ∈ rowsOf source, ∃ t ∈ rowsOf target, Front.keyOf pk t = Front.keyOf pk s ∧ differing source pk s t ≠ [] ∧
      u = ⟨(differing source pk s t).map fun c ↦ (c, s c), keyWhere pk.eraseDups s⟩ := by
  obtain ⟨s, hs, hu⟩ := List.mem_filterMap.mp hu
  obtain ⟨t, ht, hu⟩ := Option.bind_eq_some_iff.mp hu
  obtain ⟨hmem, hkey⟩ := (counterpart_eq_some_iff h.targetKeys).mp ht
  unfold rowUpdate at hu
  split_ifs at hu with hdiffering
  exact ⟨s, hs, t, hmem, hkey, hdiffering, (Option.some_inj.mp hu).symm⟩

theorem lookup_differing (s t : Row) (c : Text) :
    ((differing source pk s t).map fun c ↦ (c, s c)).lookup c = if c ∈ differing source pk s t then some (s c) else none := by
  rw [lookup_map (fun c ↦ c) s]
  split_ifs with hmem
  · rw [find?_eq_of_unique hmem (by simp) fun other _ hother ↦ of_decide_eq_true hother]
    rfl
  · have hnone : (differing source pk s t).find? (fun other ↦ other = c) = none :=
      List.find?_eq_none.mpr fun other hother heq ↦ hmem (of_decide_eq_true heq ▸ hother)
    rw [hnone]
    rfl

/-- An update leaves the key alone. -/
theorem keyOf_assign (s t row : Row) :
    Front.keyOf pk (assign ((differing source pk s t).map fun c ↦ (c, s c)) row) = Front.keyOf pk row := by
  refine List.map_congr_left fun k hk ↦ ?_
  have hkey : k ∉ differing source pk s t := by simp [differing, hk]
  rw [assign, lookup_differing, if_neg hkey]
  rfl

theorem keyOf_repaired (row : Row) : Front.keyOf pk (repaired source pk row) = Front.keyOf pk row := by
  unfold repaired
  cases counterpart source pk row with
  | none => rfl
  | some s =>
    refine List.map_congr_left fun k hk ↦ ?_
    have hkey : k ∉ differing source pk s row := by simp [differing, hk]
    exact if_neg hkey

theorem differing_nil_of_agree {s row : Row} (h : ∀ c ∈ source.columns.map (·.name), row c = s c) :
    differing source pk s row = [] := by
  refine List.filter_eq_nil_iff.mpr fun c hc ↦ ?_
  simp [h c hc, sameValue]

theorem repaired_of_differing_nil {s row : Row} (hs : counterpart source pk row = some s)
    (hnil : differing source pk s row = []) : repaired source pk row = row := by
  unfold repaired
  rw [hs]
  funext c
  simp [hnil]

/-- Each row is changed by the one update that names its key, and so repaired. -/
theorem updated_eq_repaired (h : Comparable source target pk) {table : List Row} (hgrown : Grown source target pk table)
    {row : Row} (hrow : row ∈ table) :
    ((rowUpdates source target pk).find? fun u ↦ Front.keyOf pk row = namedKey pk u.where_).elim row
      (fun u ↦ assign u.set row) = repaired source pk row := by
  have hnone (hunnamed : ∀ u ∈ rowUpdates source target pk, Front.keyOf pk row ≠ namedKey pk u.where_) :
      (rowUpdates source target pk).find? (fun u ↦ Front.keyOf pk row = namedKey pk u.where_) = none :=
    List.find?_eq_none.mpr fun u hu heq ↦ hunnamed u hu (of_decide_eq_true heq)
  rcases hgrown.split row hrow with hold | ⟨hnew, s, hs, hkey, hagree⟩
  · cases hcounterpart : counterpart source pk row with
    | none =>
      rw [hnone fun u hu heq ↦ ?_]
      · simp [repaired, hcounterpart]
      · obtain ⟨s, hs, t, -, -, -, rfl⟩ := mem_rowUpdates h hu
        rw [namedKey_keyWhere] at heq
        exact counterpart_eq_none_iff.mp hcounterpart (heq ▸ List.mem_map_of_mem hs)
    | some s =>
      obtain ⟨hs, hkey⟩ := (counterpart_eq_some_iff h.sourceKeys).mp hcounterpart
      have hback : counterpart target pk s = some row := (counterpart_eq_some_iff h.targetKeys).mpr ⟨hold, hkey.symm⟩
      have hthis : ∀ u ∈ rowUpdates source target pk, Front.keyOf pk row = namedKey pk u.where_ →
          differing source pk s row ≠ [] ∧ u = ⟨(differing source pk s row).map fun c ↦ (c, s c), keyWhere pk.eraseDups s⟩ := by
        intro u hu heq
        obtain ⟨s', hs', t, ht, htkey, hdiffering, rfl⟩ := mem_rowUpdates h hu
        rw [namedKey_keyWhere] at heq
        obtain rfl := List.inj_on_of_nodup_map h.sourceKeys hs hs' (hkey.trans heq)
        obtain rfl := List.inj_on_of_nodup_map h.targetKeys hold ht (heq.trans htkey.symm)
        exact ⟨hdiffering, rfl⟩
      by_cases hnil : differing source pk s row = []
      · rw [hnone fun u hu heq ↦ (hthis u hu heq).1 hnil, repaired_of_differing_nil hcounterpart hnil]
        rfl
      · have hu : (⟨(differing source pk s row).map fun c ↦ (c, s c), keyWhere pk.eraseDups s⟩ : RowUpdate) ∈
            rowUpdates source target pk :=
          List.mem_filterMap.mpr ⟨s, hs, by simp [hback, rowUpdate, hnil]⟩
        have hfind := find?_eq_of_unique (p := fun u : RowUpdate ↦ Front.keyOf pk row = namedKey pk u.where_) hu
          (by simp [namedKey_keyWhere, hkey]) fun u hu heq ↦ (hthis u hu (of_decide_eq_true heq)).2
        rw [hfind]
        funext c
        simp only [Option.elim_some, assign, lookup_differing, repaired, hcounterpart]
        split_ifs <;> rfl
  · rw [hnone fun u hu heq ↦ ?_]
    · have hcounterpart : counterpart source pk row = some s := (counterpart_eq_some_iff h.sourceKeys).mpr ⟨hs, hkey.symm⟩
      exact (repaired_of_differing_nil hcounterpart (differing_nil_of_agree hagree)).symm
    · obtain ⟨s', -, t, ht, htkey, -, rfl⟩ := mem_rowUpdates h hu
      rw [namedKey_keyWhere] at heq
      exact counterpart_eq_none_iff.mp hnew (List.mem_map.mpr ⟨t, ht, htkey.trans heq.symm⟩)

theorem runPlan_updates (h : Comparable source target pk) {table : List Row} (hgrown : Grown source target pk table)
    (item : RowUpdate → PlanItem) (hitem : ∀ u, ∃ setTypes, item u = .update u.set u.where_ setTypes) :
    runPlan pk fill table ((rowUpdates source target pk).map item) = some (table.map (repaired source pk)) := by
  have hrun : ∀ (table : List Row) (u : RowUpdate), runItem pk fill table (item u) =
      KeyedRows.update (Front.keyOf pk) (matchesWhere u.where_) (assign u.set) table := fun table u ↦ by
    obtain ⟨setTypes, hu⟩ := hitem u
    rw [hu]
    rfl
  have hkeys : ((rowUpdates source target pk).map fun u ↦ namedKey pk u.where_).Sublist
      ((rowsOf source).map (Front.keyOf pk)) := by
    refine sublist_named fun s _ u hu ↦ ?_
    obtain ⟨t, -, hu⟩ := Option.bind_eq_some_iff.mp hu
    unfold rowUpdate at hu
    split_ifs at hu
    obtain rfl := Option.some_inj.mp hu
    exact namedKey_keyWhere pk s
  have hall : table.map (repaired source pk) = table.map fun row ↦
      ((rowUpdates source target pk).find? fun u ↦ Front.keyOf pk row = namedKey pk u.where_).elim row
        fun u ↦ assign u.set row :=
    List.map_congr_left fun row hrow ↦ (updated_eq_repaired h hgrown hrow).symm
  unfold runPlan
  rw [List.foldlM_map, hall]
  simp only [hrun]
  refine KeyedRows.updates_of_keys _ hgrown.keys (h.sourceKeys.sublist hkeys) ?_ ?_ ?_
  · intro u hu
    obtain ⟨s, hs, t, ht, htkey, -, rfl⟩ := mem_rowUpdates h hu
    rw [namedKey_keyWhere]
    exact List.mem_map.mpr ⟨t, hgrown.old t ht, htkey⟩
  · intro u hu row
    obtain ⟨s, hs, t, ht, htkey, -, rfl⟩ := mem_rowUpdates h hu
    rw [namedKey_keyWhere]
    exact matchesWhere_eraseDups pk s row
  · intro u hu row
    obtain ⟨s, hs, t, ht, htkey, -, rfl⟩ := mem_rowUpdates h hu
    exact keyOf_assign s t row

theorem mem_goneKeys {w : RowValues} (hw : w ∈ goneKeys source target pk) :
    ∃ t ∈ rowsOf target, counterpart source pk t = none ∧ w = keyWhere pk.eraseDups t := by
  obtain ⟨t, ht, hw⟩ := List.mem_filterMap.mp hw
  split_ifs at hw with hnone
  exact ⟨t, ht, Option.isNone_iff_eq_none.mp hnone, (Option.some_inj.mp hw).symm⟩

theorem runPlan_deletes (h : Comparable source target pk) {table : List Row} (hkeys : (table.map (Front.keyOf pk)).Nodup)
    (hold : ∀ t ∈ rowsOf target, Front.keyOf pk t ∈ table.map (Front.keyOf pk))
    (hfound : ∀ row ∈ table, Front.keyOf pk row ∉ (rowsOf target).map (Front.keyOf pk) → (counterpart source pk row).isSome) :
    runPlan pk fill table ((goneKeys source target pk).map .delete) =
      some (table.filter fun row ↦ (counterpart source pk row).isSome) := by
  have hnamed : ((goneKeys source target pk).map (namedKey pk)).Sublist ((rowsOf target).map (Front.keyOf pk)) := by
    refine sublist_named fun t _ w hw ↦ ?_
    split_ifs at hw
    · obtain rfl := Option.some_inj.mp hw
      exact namedKey_keyWhere pk t
    · exact absurd hw (by simp)
  unfold runPlan
  rw [List.foldlM_map]
  refine KeyedRows.deletes_of_keys _ hkeys (h.targetKeys.sublist hnamed) ?_ ?_ fun row hrow ↦ ⟨?_, ?_⟩
  · intro w hw
    obtain ⟨t, ht, -, rfl⟩ := mem_goneKeys hw
    rw [namedKey_keyWhere]
    exact hold t ht
  · intro w hw row
    obtain ⟨t, ht, -, rfl⟩ := mem_goneKeys hw
    rw [namedKey_keyWhere]
    exact matchesWhere_eraseDups pk t row
  · intro hsome hgone
    obtain ⟨w, hw, hkey⟩ := List.mem_map.mp hgone
    obtain ⟨t, -, hnone, rfl⟩ := mem_goneKeys hw
    rw [namedKey_keyWhere] at hkey
    rw [counterpart_congr hkey.symm, hnone] at hsome
    exact absurd hsome (by simp)
  · intro hkept
    by_cases htarget : Front.keyOf pk row ∈ (rowsOf target).map (Front.keyOf pk)
    · obtain ⟨t, ht, hkey⟩ := List.mem_map.mp htarget
      by_contra hnone
      have hgone : counterpart source pk t = none := by
        rw [counterpart_congr hkey]
        simpa using hnone
      exact hkept (List.mem_map.mpr ⟨_, List.mem_filterMap.mpr ⟨t, ht, by simp [hgone]⟩,
        (namedKey_keyWhere pk t).trans hkey⟩)
    · exact hfound row hrow htarget

/-- What the plan of the ticked kinds does to the target. -/
theorem runPlan_picked (hfill : Stores fill) (h : Comparable source target pk) (ops : SyncOps)
    (types : Text → Option Text) {diff : DataDiff} (hdiff : diffData source target pk = .ok diff) :
    runPlan pk fill (rowsOf target) (diffToPlan (pickOps diff ops) types) = some (synced source target pk fill ops) := by
  rw [diffData_eq h, Except.ok.injEq] at hdiff
  subst hdiff
  obtain ⟨insert, update, delete⟩ := ops
  let news := if insert then newRows source target pk else []
  let grown := addRows fill (rowsOf target) (news.map (valuesOf source))
  have hnews : news.Sublist (newRows source target pk) := by
    simp only [news]
    split_ifs
    · exact .refl _
    · exact List.nil_sublist _
  have hvalues : (if insert then newValues source target pk else []) = news.map (valuesOf source) := by
    simp only [news]
    split_ifs
    · exact newValues_eq source target pk
    · rfl
  have hgrown : Grown source target pk grown := grown_addRows hfill h hnews
  let mended := if update then grown.map (repaired source pk) else grown
  have hmended : mended.map (Front.keyOf pk) = grown.map (Front.keyOf pk) := by
    simp only [mended]
    split_ifs
    · rw [List.map_map]
      exact List.map_congr_left fun row _ ↦ keyOf_repaired row
    · rfl
  have hinserts : runPlan pk fill (rowsOf target)
      ((news.map (valuesOf source)).map fun values ↦ .insert values (some (planTypes types (values.map Prod.fst))) none) =
        some grown :=
    runPlan_inserts _ _ hgrown.keys _ fun _ ↦ ⟨_, rfl⟩
  have hupdates : runPlan pk fill grown
      ((if update then rowUpdates source target pk else []).map fun u ↦
        .update u.set u.where_ (some (planTypes types (u.set.map Prod.fst)))) = some mended := by
    simp only [mended]
    split_ifs
    · exact runPlan_updates h hgrown _ fun _ ↦ ⟨_, rfl⟩
    · rfl
  have hdeletes : runPlan pk fill mended ((if delete then goneKeys source target pk else []).map .delete) =
      some (if delete then mended.filter fun row ↦ (counterpart source pk row).isSome else mended) := by
    split_ifs
    · refine runPlan_deletes h (hmended ▸ hgrown.keys) (fun t ht ↦ ?_) fun row hrow hnew ↦ ?_
      · exact hmended ▸ List.mem_map_of_mem (hgrown.old t ht)
      · have hkey : Front.keyOf pk row ∈ grown.map (Front.keyOf pk) := hmended ▸ List.mem_map_of_mem hrow
        obtain ⟨other, hother, hsame⟩ := List.mem_map.mp hkey
        rcases hgrown.split other hother with hold | ⟨-, s, hs, hskey, -⟩
        · exact absurd (List.mem_map.mpr ⟨other, hold, hsame⟩) hnew
        · exact Option.isSome_iff_exists.mpr
            ⟨s, (counterpart_eq_some_iff h.sourceKeys).mpr ⟨hs, hskey.symm.trans hsame⟩⟩
    · rfl
  simp only [diffToPlan, pickOps, hvalues, runPlan_append, hinserts, Option.bind_some, hupdates, hdeletes]
  simp only [synced, hvalues]
  rfl

/-! ## Comparing again -/

/-- `SELECT *` from a table. -/
def selectAll (columns : List ResultColumn) (table : List Row) : Compare.ResultSet where
  columns := columns
  rows := table.map fun row ↦ columns.map fun c ↦ row c.name
  truncated := false

/-- A row of the result has the values of its row of the table, in the columns of the result. -/
theorem rowOf_selected {columns : List ResultColumn} {name : Text} (hname : name ∈ columns.map (·.name)) (row : Row) :
    rowOf columns (columns.map fun c ↦ row c.name) name = row name := by
  obtain ⟨c, hc, rfl⟩ := List.mem_map.mp hname
  obtain ⟨i, hi⟩ : ∃ i, columns.findIdx? (·.name = c.name) = some i := by
    refine Option.ne_none_iff_exists'.mp fun hnone ↦ ?_
    simpa using List.findIdx?_eq_none_iff.mp hnone c hc
  obtain ⟨hlt, hsame, -⟩ := List.findIdx?_eq_some_iff_getElem.mp hi
  rw [rowOf, hi, Option.bind_some, List.getElem?_map, List.getElem?_eq_getElem hlt, Option.map_some, Option.join_some,
    of_decide_eq_true hsame]

def allOps : SyncOps := ⟨true, true, true⟩

/-- Behind a full sync the rows have different keys, and each has a counterpart that it agrees with. -/
theorem synced_spec (hfill : Stores fill) (h : Comparable source target pk) :
    ((synced source target pk fill allOps).map (Front.keyOf pk)).Nodup ∧
      (∀ s ∈ rowsOf source, ∃ row ∈ synced source target pk fill allOps, Front.keyOf pk row = Front.keyOf pk s) ∧
      ∀ row ∈ synced source target pk fill allOps, ∃ s ∈ rowsOf source, Front.keyOf pk row = Front.keyOf pk s ∧
        differing source pk s row = [] := by
  have hgrown : Grown source target pk (addRows fill (rowsOf target) (newValues source target pk)) :=
    newValues_eq source target pk ▸ grown_addRows hfill h (.refl _)
  have hsynced : synced source target pk fill allOps =
      ((addRows fill (rowsOf target) (newValues source target pk)).map (repaired source pk)).filter fun row ↦
        (counterpart source pk row).isSome := rfl
  rw [hsynced]
  refine ⟨?_, fun s hs ↦ ?_, fun row hrow ↦ ?_⟩
  · refine List.Nodup.sublist (List.filter_sublist.map _) ?_
    rw [List.map_map]
    have hsame : (addRows fill (rowsOf target) (newValues source target pk)).map (Front.keyOf pk ∘ repaired source pk) =
        (addRows fill (rowsOf target) (newValues source target pk)).map (Front.keyOf pk) :=
      List.map_congr_left fun row _ ↦ keyOf_repaired row
    exact hsame ▸ hgrown.keys
  · obtain ⟨row, hrow, hkey⟩ : ∃ row ∈ addRows fill (rowsOf target) (newValues source target pk),
        Front.keyOf pk row = Front.keyOf pk s := by
      by_cases hold : Front.keyOf pk s ∈ (rowsOf target).map (Front.keyOf pk)
      · obtain ⟨t, ht, hkey⟩ := List.mem_map.mp hold
        exact ⟨t, hgrown.old t ht, hkey⟩
      · obtain ⟨rows, hrows, hall⟩ := addRows_eq_map fill (rowsOf target) (newValues source target pk)
        have hmem : valuesOf source s ∈ newValues source target pk :=
          List.mem_filterMap.mpr ⟨s, hs, by simp [counterpart_eq_none_iff.mpr hold]⟩
        obtain ⟨row, hrow, before, rfl⟩ := Traversal.exists_of_mem_right hall hmem
        exact ⟨_, hrows ▸ List.mem_append_right _ hrow, keyOf_fill hfill h before s⟩
    refine ⟨repaired source pk row, List.mem_filter.mpr ⟨List.mem_map_of_mem hrow, ?_⟩, (keyOf_repaired row).trans hkey⟩
    rw [counterpart_congr ((keyOf_repaired row).trans hkey)]
    exact Option.isSome_iff_exists.mpr ⟨s, (counterpart_eq_some_iff h.sourceKeys).mpr ⟨hs, rfl⟩⟩
  · obtain ⟨hmem, hsome⟩ := List.mem_filter.mp hrow
    obtain ⟨before, -, rfl⟩ := List.mem_map.mp hmem
    obtain ⟨s, hcounterpart⟩ := Option.isSome_iff_exists.mp hsome
    obtain ⟨hs, hkey⟩ := (counterpart_eq_some_iff h.sourceKeys).mp hcounterpart
    refine ⟨s, hs, hkey.symm, List.filter_eq_nil_iff.mpr fun c hc ↦ ?_⟩
    rw [counterpart_congr (keyOf_repaired before)] at hcounterpart
    simp only [repaired, hcounterpart, Option.elim_some, decide_eq_true_eq, not_and, Bool.not_eq_false]
    intro hkeyless
    split_ifs with hdiffering
    · simp [sameValue]
    · by_contra hdiffer
      exact hdiffering (List.mem_filter.mpr ⟨hc, by simp [hkeyless, hdiffer]⟩)

theorem mem_rowsOf_selectAll {columns : List ResultColumn} {table : List Row} {row : Row} :
    row ∈ rowsOf (selectAll columns table) ↔ ∃ r ∈ table, row = rowOf columns (columns.map fun c ↦ r c.name) := by
  simp [rowsOf, selectAll, eq_comm]

theorem keyOf_selected {columns : List ResultColumn} (hpk : ∀ k ∈ pk, k ∈ columns.map (·.name)) (row : Row) :
    Front.keyOf pk (rowOf columns (columns.map fun c ↦ row c.name)) = Front.keyOf pk row :=
  List.map_congr_left fun k hk ↦ rowOf_selected (hpk k hk) row

/-- The target behind a full sync can be compared with the source again. -/
theorem comparable_synced (hfill : Stores fill) (h : Comparable source target pk) :
    Comparable source (selectAll target.columns (synced source target pk fill allOps)) pk := by
  obtain ⟨hkeys, -, hagree⟩ := synced_spec hfill h
  refine ⟨⟨h.whole.1, rfl⟩, h.sourceNames, h.targetNames, h.inSource, h.inTarget, h.sourceKeys, ?_, h.sourceTexts, ?_⟩
  · have hsame : (rowsOf (selectAll target.columns (synced source target pk fill allOps))).map (Front.keyOf pk) =
        (synced source target pk fill allOps).map (Front.keyOf pk) := by
      simp only [rowsOf, selectAll, List.map_map]
      exact List.map_congr_left fun row _ ↦ keyOf_selected h.inTarget row
    exact hsame ▸ hkeys
  · intro row hrow
    obtain ⟨r, hr, rfl⟩ := mem_rowsOf_selectAll.mp hrow
    obtain ⟨s, hs, hkey, -⟩ := hagree r hr
    rw [keyOf_selected h.inTarget, hkey]
    exact h.sourceTexts s hs

/-- A second comparison finds every row of the source, with its values, and no other. -/
theorem diffData_synced (hfill : Stores fill) (h : Comparable source target pk)
    (hcolumns : ∀ c ∈ source.columns.map (·.name), c ∈ target.columns.map (·.name)) :
    diffData source (selectAll target.columns (synced source target pk fill allOps)) pk = .ok ⟨[], [], []⟩ := by
  have hagain := comparable_synced hfill h
  obtain ⟨-, hevery, hagree⟩ := synced_spec hfill h
  have hmatched : ∀ s ∈ rowsOf source, ∃ t,
      counterpart (selectAll target.columns (synced source target pk fill allOps)) pk s = some t ∧
        differing source pk s t = [] := by
    intro s hs
    obtain ⟨row, hrow, hkey⟩ := hevery s hs
    obtain ⟨s', hs', hkey', hnil⟩ := hagree row hrow
    obtain rfl := List.inj_on_of_nodup_map h.sourceKeys hs hs' (hkey.symm.trans hkey')
    refine ⟨rowOf target.columns (target.columns.map fun c ↦ row c.name),
      (counterpart_eq_some_iff hagain.targetKeys).mpr ⟨mem_rowsOf_selectAll.mpr ⟨row, hrow, rfl⟩, ?_⟩, ?_⟩
    · rw [keyOf_selected h.inTarget, hkey]
    · rw [← hnil]
      exact List.filter_congr fun c hc ↦ by rw [rowOf_selected (hcolumns c hc)]
  rw [diffData_eq hagain]
  simp only [Except.ok.injEq, DataDiff.mk.injEq]
  refine ⟨?_, ?_, ?_⟩
  · refine List.filterMap_eq_nil_iff.mpr fun s hs ↦ ?_
    obtain ⟨t, ht, -⟩ := hmatched s hs
    simp [ht]
  · refine List.filterMap_eq_nil_iff.mpr fun s hs ↦ ?_
    obtain ⟨t, ht, hnil⟩ := hmatched s hs
    simp [ht, rowUpdate, hnil]
  · refine List.filterMap_eq_nil_iff.mpr fun row hrow ↦ ?_
    obtain ⟨r, hr, rfl⟩ := mem_rowsOf_selectAll.mp hrow
    obtain ⟨s, hs, hkey, -⟩ := hagree r hr
    have hfound : counterpart source pk (rowOf target.columns (target.columns.map fun c ↦ r c.name)) = some s :=
      (counterpart_eq_some_iff h.sourceKeys).mpr ⟨hs, by rw [keyOf_selected h.inTarget, hkey]⟩
    simp [hfound]

/-- A table with the key `i` and the values `v`, of type `float`. -/
def floats (rows : List (Text × Text)) : Compare.ResultSet where
  columns := [⟨['i'], "text".toList⟩, ⟨['v'], "float".toList⟩]
  rows := rows.map fun row ↦ [some row.1, some row.2]
  truncated := false

def oldFloats : Compare.ResultSet := floats [("1".toList, "2.50".toList), ("2".toList, "3".toList), ("3".toList, "4".toList)]

def newFloats : Compare.ResultSet := floats [("1".toList, "2.5".toList), ("2".toList, "9".toList), ("4".toList, "1".toList)]

theorem floats_comparable : Comparable newFloats oldFloats [['i']] := by
  refine ⟨⟨rfl, rfl⟩, by decide, by decide, by decide, by decide, by decide, by decide, ?_, ?_⟩
  · simp only [rowsOf, newFloats, floats, IsKeyText, Front.keyOf, List.map_cons, List.map_nil, List.forall_mem_cons,
      List.not_mem_nil, false_imp_iff, implies_true, and_true]
    exact ⟨⟨['1'], rfl, by decide⟩, ⟨['2'], rfl, by decide⟩, ['4'], rfl, by decide⟩
  · simp only [rowsOf, oldFloats, floats, IsKeyText, Front.keyOf, List.map_cons, List.map_nil, List.forall_mem_cons,
      List.not_mem_nil, false_imp_iff, implies_true, and_true]
    exact ⟨⟨['1'], rfl, by decide⟩, ⟨['2'], rfl, by decide⟩, ['3'], rfl, by decide⟩

end Squaero.Front.DataSync
