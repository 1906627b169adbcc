import Mathlib.Data.List.Nodup
import Squaero.Mongo.Bson

/-!
# Pages of documents

What `mongo_result_from_docs` puts in a row and in the type of a column, as functions of the column's name.
-/

namespace Squaero.Mongo

open Squaero.Lib Squaero.Core

/-! ## Columns -/

theorem mem_mongoColumnsObserve {names : List Text} {name other : Text} :
    other ∈ mongoColumnsObserve names name ↔ other ∈ names ∨ other = name := by
  unfold mongoColumnsObserve
  split_ifs with hmem
  · exact ⟨.inl, fun h ↦ h.elim id fun heq ↦ heq ▸ hmem⟩
  · rw [List.mem_cons, or_comm]
  · rw [List.mem_append, List.mem_singleton]

theorem nodup_mongoColumnsObserve {names : List Text} (h : names.Nodup) (name : Text) :
    (mongoColumnsObserve names name).Nodup := by
  unfold mongoColumnsObserve
  split_ifs with hmem
  · exact h
  · exact List.nodup_cons.mpr ⟨hmem, h⟩
  · refine List.nodup_append.mpr ⟨h, List.nodup_singleton _, fun a ha b hb heq ↦ hmem ?_⟩
    rwa [← List.mem_singleton.mp hb, ← heq]

/-- The columns of a page are the names of its fields, each once. -/
theorem columnUnion_spec (docs : List BsonFields) :
    (columnUnion docs).Nodup ∧ ∀ field ∈ docs.flatten, field.1 ∈ columnUnion docs := by
  have hall (fields : BsonFields) (names : List Text) (h : names.Nodup) :
      (fields.foldl (fun names field ↦ mongoColumnsObserve names field.1) names).Nodup ∧
        ∀ name, name ∈ names ∨ name ∈ fields.map Prod.fst →
          name ∈ fields.foldl (fun names field ↦ mongoColumnsObserve names field.1) names := by
    induction fields generalizing names with
    | nil => exact ⟨h, fun name hname ↦ hname.resolve_right List.not_mem_nil⟩
    | cons field fields ih =>
      obtain ⟨hnodup, hmem⟩ := ih _ (nodup_mongoColumnsObserve h field.1)
      refine ⟨hnodup, fun name hname ↦ hmem name ?_⟩
      rw [mem_mongoColumnsObserve]
      rw [List.map_cons, List.mem_cons] at hname
      tauto
  obtain ⟨hnodup, hmem⟩ := hall docs.flatten [] List.nodup_nil
  exact ⟨hnodup, fun field hfield ↦ hmem field.1 (.inr (List.mem_map_of_mem hfield))⟩

/-! ## Cells -/

/-- What is set at the place of a name is what the name has from then on. -/
theorem set_idxOf {α : Type} {names : List Text} (hnodup : names.Nodup) {key : Text} (hkey : key ∈ names) (f : Text → α)
    (x : α) : (names.map f).set (names.idxOf key) x = names.map (Function.update f key x) := by
  induction names with
  | nil => cases hkey
  | cons name names ih =>
    obtain ⟨hname, hrest⟩ := List.nodup_cons.mp hnodup
    by_cases heq : name = key
    · subst heq
      rw [List.idxOf_cons_self, List.map_cons, List.set_cons_zero, List.map_cons, Function.update_self]
      congr 1
      exact List.map_congr_left fun n hn ↦ (Function.update_of_ne (ne_of_mem_of_not_mem hn hname) _ _).symm
    · have hmem := (List.mem_cons.mp hkey).resolve_left (Ne.symm heq)
      rw [List.idxOf_cons_ne _ heq, List.map_cons, List.set_cons_succ, ih hrest hmem, List.map_cons,
        Function.update_of_ne heq]

theorem getElem?_idxOf {α : Type} {names : List Text} {key : Text} (hkey : key ∈ names) (f : Text → α) :
    (names.map f)[names.idxOf key]? = some (f key) := by
  rw [List.getElem?_map, List.getElem?_idxOf hkey]
  rfl

variable (lib : LibBson)

/-- The cell of a document in a column. -/
def cellAt (doc : BsonFields) : Text → Option Text :=
  doc.foldl (fun cells field ↦ Function.update cells field.1 (mongoBsonCellText lib field.2)) fun _ ↦ none

/-- The type of a column. -/
def typeAt (fields : BsonFields) : Text → DbcType :=
  fields.foldl (fun types field ↦
    if (mongoBsonCellText lib field.2).isSome ∧ types field.1 = .null then
      Function.update types field.1 (mongoBsonTypeToNeutral field.2)
    else types) fun _ ↦ .null

theorem foldl_setCell {names : List Text} (hnodup : names.Nodup) {doc : BsonFields}
    (hdoc : ∀ field ∈ doc, field.1 ∈ names) :
    doc.foldl (setCell lib names) (List.replicate names.length none) = names.map (cellAt lib doc) := by
  have hall (cells : Text → Option Text) : doc.foldl (setCell lib names) (names.map cells) =
      names.map (doc.foldl (fun cells field ↦
        Function.update cells field.1 (mongoBsonCellText lib field.2)) cells) := by
    induction doc generalizing cells with
    | nil => rfl
    | cons field doc ih =>
      rw [List.foldl_cons, List.foldl_cons, setCell, set_idxOf hnodup (hdoc field (.head _)),
        ih fun f hf ↦ hdoc f (.tail _ hf)]
  rw [← List.map_const']
  exact hall fun _ ↦ none

theorem foldl_setType {names : List Text} (hnodup : names.Nodup) {fields : BsonFields}
    (hfields : ∀ field ∈ fields, field.1 ∈ names) :
    fields.foldl (setType lib names) (List.replicate names.length .null) = names.map (typeAt lib fields) := by
  have hall (types : Text → DbcType) : fields.foldl (setType lib names) (names.map types) =
      names.map (fields.foldl (fun types field ↦
        if (mongoBsonCellText lib field.2).isSome ∧ types field.1 = .null then
          Function.update types field.1 (mongoBsonTypeToNeutral field.2)
        else types) types) := by
    induction fields generalizing types with
    | nil => rfl
    | cons field fields ih =>
      have hkey := hfields field (.head _)
      have hstep : setType lib names (names.map types) field = names.map
          (if (mongoBsonCellText lib field.2).isSome ∧ types field.1 = .null then
            Function.update types field.1 (mongoBsonTypeToNeutral field.2) else types) := by
        unfold setType
        dsimp only
        simp only [getElem?_idxOf hkey, Option.some.injEq, set_idxOf hnodup hkey]
        split_ifs <;> rfl
      rw [List.foldl_cons, List.foldl_cons, hstep, ih fun f hf ↦ hfields f (.tail _ hf)]
  rw [← List.map_const']
  exact hall fun _ ↦ .null

/-- The parts of a page, column by column. -/
theorem mongoResultFromDocs_eq (docs : List BsonFields) :
    mongoResultFromDocs lib docs =
      { names := columnUnion docs
        types := (columnUnion docs).map (typeAt lib docs.flatten)
        rows := docs.map fun doc ↦ (columnUnion docs).map (cellAt lib doc) } := by
  obtain ⟨hnodup, hmem⟩ := columnUnion_spec docs
  have hrows : docs.map (fun doc ↦ doc.foldl (setCell lib (columnUnion docs))
      (List.replicate (columnUnion docs).length none)) =
      docs.map fun doc ↦ (columnUnion docs).map (cellAt lib doc) :=
    List.map_congr_left fun doc hdoc ↦
      foldl_setCell lib hnodup fun field hfield ↦ hmem field (List.mem_flatten.mpr ⟨doc, hdoc, hfield⟩)
  unfold mongoResultFromDocs
  dsimp only
  rw [foldl_setType lib hnodup hmem, hrows]

section

variable {lib} {key : Text}

theorem foldl_update_of_not_mem {doc : BsonFields} (h : key ∉ doc.map Prod.fst) (cells : Text → Option Text) :
    doc.foldl (fun cells field ↦ Function.update cells field.1 (mongoBsonCellText lib field.2)) cells key =
      cells key := by
  induction doc generalizing cells with
  | nil => rfl
  | cons field doc ih =>
    rw [List.map_cons, List.mem_cons, not_or] at h
    rw [List.foldl_cons, ih h.2, Function.update_of_ne h.1]

theorem cellAt_of_not_mem {doc : BsonFields} (h : key ∉ doc.map Prod.fst) : cellAt lib doc key = none :=
  foldl_update_of_not_mem h _

/-- In a document without two fields of one name the cell is the text of the field. -/
theorem cellAt_of_mem {doc : BsonFields} (hnodup : (doc.map Prod.fst).Nodup) {v : Bson} (h : (key, v) ∈ doc) :
    cellAt lib doc key = mongoBsonCellText lib v := by
  unfold cellAt
  generalize (fun _ ↦ none : Text → Option Text) = cells
  induction doc generalizing cells with
  | nil => cases h
  | cons field doc ih =>
    obtain ⟨hfirst, hrest⟩ := List.nodup_cons.mp hnodup
    rw [List.foldl_cons]
    rcases List.mem_cons.mp h with rfl | hmem
    · rw [foldl_update_of_not_mem hfirst, Function.update_self]
    · exact ih hrest hmem _

/-- A column whose values have one type has this type. -/
theorem typeAt_eq {fields : BsonFields} {type : DbcType}
    (hall : ∀ field ∈ fields, field.1 = key → (mongoBsonCellText lib field.2).isSome = true →
      mongoBsonTypeToNeutral field.2 = type)
    (hsome : ∃ field ∈ fields, field.1 = key ∧ (mongoBsonCellText lib field.2).isSome = true) :
    typeAt lib fields key = type := by
  unfold typeAt
  obtain ⟨types, htypes⟩ : ∃ types : Text → DbcType, types = fun _ ↦ .null := ⟨_, rfl⟩
  have hstart : types key = type ∨ types key = .null ∧
      ∃ field ∈ fields, field.1 = key ∧ (mongoBsonCellText lib field.2).isSome = true :=
    .inr ⟨congrFun htypes key, hsome⟩
  rw [← htypes]
  clear hsome htypes
  induction fields generalizing types with
  | nil =>
    rcases hstart with h | ⟨-, field, hfield, -⟩
    · exact h
    · cases hfield
  | cons field fields ih =>
    rw [List.foldl_cons]
    apply ih fun f hf ↦ hall f (.tail _ hf)
    have hfirst := hall field (.head _)
    split_ifs with hset
    · by_cases hkey : field.1 = key
      · subst hkey
        exact .inl ((Function.update_self ..).trans (hfirst rfl hset.1))
      · rw [Function.update_of_ne (Ne.symm hkey)]
        refine hstart.imp_right fun ⟨hnull, f, hf, hfkey⟩ ↦ ⟨hnull, f, ?_, hfkey⟩
        exact (List.mem_cons.mp hf).resolve_left fun heq ↦ hkey (heq ▸ hfkey.1)
    · refine hstart.imp_right fun ⟨hnull, f, hf, hfkey⟩ ↦ ⟨hnull, f, ?_, hfkey⟩
      refine (List.mem_cons.mp hf).resolve_left fun heq ↦ hset ?_
      subst heq
      exact ⟨hfkey.2, hfkey.1 ▸ hnull⟩

end

end Squaero.Mongo
