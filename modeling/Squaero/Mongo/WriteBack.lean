import Squaero.Mongo.Pages
import Squaero.Mongo.WrittenCells

/-!
# Documents written back

The cells that a page shows of a document, with the types of its columns, as an `insertOne` of the builder or one at a
time as a `$set`: when libbson reads the fields of the document again.
-/

namespace Squaero.Mongo

open Squaero.Lib Squaero.Core Squaero.Drivers

/-! ## Pages -/

/-- A page on which each field has one BSON type throughout; a field may be null. -/
structure IsPage (docs : List BsonFields) : Prop where
  keys : ∀ doc ∈ docs, (doc.map Prod.fst).Nodup
  listed : ∀ field ∈ docs.flatten, field.2.isNull = false → field.2.Listed
  oneKind : ∀ field ∈ docs.flatten, ∀ other ∈ docs.flatten, field.1 = other.1 → field.2.isNull = false →
    other.2.isNull = false → field.2.kind = other.2.kind

/-- The cells of a row with their columns and the types of these. -/
def MongoResult.cells (r : MongoResult) (row : List (Option Text)) : List (ColumnValue × DbcType) :=
  (r.names.zip row).zip r.types

/-- The cells that are not NULL. -/
def MongoResult.present (r : MongoResult) (row : List (Option Text)) : List (ColumnValue × DbcType) :=
  (r.cells row).filter fun item ↦ item.1.2.isSome

abbrev CollectionName := { name : Text // name ≠ [] ∧ '\x00' ∉ name }

/-- A change of a collection with these cells. -/
def changeRow (table : CollectionName) (where_ : List ColumnValue) (cells : List (ColumnValue × DbcType)) : MongoRow where
  schema := none
  table := some table.1
  set := cells.map Prod.fst
  where_ := where_
  setTypes := some (cells.map Prod.snd)
  parallel types htypes := by
    obtain rfl := Option.some.inj htypes
    rw [List.length_map, List.length_map]
  cString name hname := Option.some.inj hname ▸ table.2.2

variable (lib : LibBson)

/-- The fields that an update sets. -/
def LibBson.readSet (text : Text) : Option BsonFields :=
  (Json.membersOf text).bind fun members ↦
    match members with
    | [(op, inner)] => if op = "$set".toList then lib.readDocument inner else none
    | _ => none

/-- The field called `path` behind a `$set` of `path`: a path with a dot in it leads into another field, and none begins
with a dollar or is empty. -/
def afterSet (path : Text) (old new : Bson) : Bson :=
  if path = [] ∨ '.' ∈ path ∨ path.head? = some '$' then old else new

/-- The document that is inserted has the fields of `doc`, and leaves out what is null. -/
def InsertsBack (table : CollectionName) (doc : BsonFields) (cells : List (ColumnValue × DbcType)) : Prop :=
  ∃ text fields, mongoBuildDml .insert (some (changeRow table [] cells)) =
      .ok (collRef table.1 ++ (".insertOne(".toList ++ (text ++ [')']))) ∧
    lib.readDocument text = some fields ∧ fields.Perm (doc.filter fun field ↦ !field.2.isNull)

/-- Setting a field to its own cell, of the document that any key finds, leaves it as it is. -/
def SetsBack (table : CollectionName) (field : Text × Bson) (cell : ColumnValue × DbcType) : Prop :=
  ∀ where_ filter update, renderFilter (changeRow table where_ [cell]) = .ok filter →
    mongoBuildDml .update (some (changeRow table where_ [cell])) =
      .ok (collRef table.1 ++ (".updateOne(".toList ++ (filter ++ (", ".toList ++ (update ++ [')']))))) →
    ∃ new, lib.readSet update = some [(field.1, new)] ∧ afterSet field.1 field.2 new = field.2

/-! ## The cells of a document -/

section Row

variable {lib} {docs : List BsonFields} {doc : BsonFields} {row : List (Option Text)}

theorem zip_map_self {α β : Type} (as : List α) (f : α → β) : as.zip (as.map f) = as.map fun a ↦ (a, f a) := by
  induction as with
  | nil => rfl
  | cons a as ih => rw [List.map_cons, List.zip_cons_cons, ih, List.map_cons]

theorem cells_eq (h : (doc, row) ∈ docs.zip (mongoResultFromDocs lib docs).rows) :
    (mongoResultFromDocs lib docs).cells row =
      (columnUnion docs).map fun name ↦ ((name, cellAt lib doc name), typeAt lib docs.flatten name) := by
  rw [mongoResultFromDocs_eq] at h ⊢
  dsimp only at h
  rw [zip_map_self] at h
  obtain ⟨doc', -, heq⟩ := List.mem_map.mp h
  obtain ⟨rfl, rfl⟩ := Prod.mk.inj heq
  unfold MongoResult.cells
  dsimp only
  rw [zip_map_self, List.zip_map']

variable (hpage : IsPage docs) (hdoc : doc ∈ docs)

include hpage hdoc

/-- The cell of a field that is not null, in the column of its type. -/
theorem shown_of_mem {key : Text} {v : Bson} (h : (key, v) ∈ doc) (hv : v.isNull = false) :
    ((key, cellAt lib doc key), typeAt lib docs.flatten key) = shown lib (key, v) := by
  have hmem : (key, v) ∈ docs.flatten := List.mem_flatten.mpr ⟨doc, hdoc, h⟩
  have hkind := isSome_kind_of_listed (hpage.listed _ hmem hv)
  obtain ⟨kind, hkind'⟩ := Option.isSome_iff_exists.mp hkind
  have htype : typeAt lib docs.flatten key = mongoBsonTypeToNeutral v := by
    rw [mongoBsonTypeToNeutral_of_kind hkind']
    refine typeAt_eq (fun field hfield hname hsome ↦ ?_) ⟨_, hmem, rfl, isSome_mongoBsonCellText hkind⟩
    have hnull : field.2.isNull = false := by
      cases hvalue : field.2 <;> first | rfl | (rw [hvalue] at hsome; cases hsome)
    have hsame := hpage.oneKind field hfield _ hmem hname hnull hv
    exact mongoBsonTypeToNeutral_of_kind (hsame.trans hkind')
  rw [cellAt_of_mem (hpage.keys doc hdoc) h, htype]
  rfl

omit hpage hdoc in
theorem cellAt_of_null {key : Text} (hnodup : (doc.map Prod.fst).Nodup)
    (h : ∀ v, (key, v) ∈ doc → v.isNull = true) : cellAt lib doc key = none := by
  by_cases hkey : key ∈ doc.map Prod.fst
  · obtain ⟨⟨_, v⟩, hmem, rfl⟩ := List.mem_map.mp hkey
    have hnull := h v hmem
    rw [cellAt_of_mem hnodup hmem]
    cases v <;> first | rfl | cases hnull
  · exact cellAt_of_not_mem hkey

/-- The cells that are not NULL are those of the fields that are not null, in the order of the columns. -/
theorem exists_present (hrow : (doc, row) ∈ docs.zip (mongoResultFromDocs lib docs).rows) :
    ∃ fields : BsonFields, (mongoResultFromDocs lib docs).present row = fields.map (shown lib) ∧
      fields.Perm (doc.filter fun field ↦ !field.2.isNull) := by
  obtain ⟨hnodup, hcolumn⟩ := columnUnion_spec docs
  have hkeys := hpage.keys doc hdoc
  have hfind {name : Text} {field : Text × Bson}
      (h : doc.find? (fun field ↦ field.1 = name && !field.2.isNull) = some field) :
      field ∈ doc ∧ field.1 = name ∧ field.2.isNull = false := by
    have hp := List.find?_some h
    rw [Bool.and_eq_true, decide_eq_true_eq, Bool.not_eq_true'] at hp
    exact ⟨List.mem_of_find?_eq_some h, hp⟩
  refine ⟨(columnUnion docs).filterMap fun name ↦ doc.find? fun field ↦ field.1 = name && !field.2.isNull, ?_, ?_⟩
  · unfold MongoResult.present
    rw [cells_eq hrow, ← List.filterMap_eq_filter, List.filterMap_map, List.map_filterMap]
    refine List.filterMap_congr fun name _ ↦ ?_
    cases hfound : doc.find? fun field ↦ field.1 = name && !field.2.isNull with
    | some field =>
      obtain ⟨hmem, rfl, hnull⟩ := hfind hfound
      have hshown : ((field.1, cellAt lib doc field.1), typeAt lib docs.flatten field.1) = shown lib field :=
        shown_of_mem hpage hdoc hmem hnull
      have hsome : (mongoBsonCellText lib field.2).isSome = true := isSome_mongoBsonCellText
        (isSome_kind_of_listed (hpage.listed field (List.mem_flatten.mpr ⟨doc, hdoc, hmem⟩) hnull))
      rw [Function.comp_apply, hshown]
      exact Option.guard_eq_some_iff.mpr ⟨rfl, hsome⟩
    | none =>
      have hnull (v : Bson) (hv : (name, v) ∈ doc) : v.isNull = true := by
        simpa using List.find?_eq_none.mp hfound (name, v) hv
      rw [Function.comp_apply, cellAt_of_null hkeys hnull]
      rfl
  · refine (List.perm_ext_iff_of_nodup ?_ (hkeys.of_map.filter _)).mpr fun field ↦ ?_
    · refine hnodup.filterMap fun name name' field h h' ↦ ?_
      exact (hfind h).2.1.symm.trans (hfind h').2.1
    · rw [List.mem_filterMap, List.mem_filter, Bool.not_eq_true']
      constructor
      · rintro ⟨name, -, h⟩
        exact ⟨(hfind h).1, (hfind h).2.2⟩
      · rintro ⟨hmem, hnull⟩
        refine ⟨field.1, hcolumn field (List.mem_flatten.mpr ⟨doc, hdoc, hmem⟩), ?_⟩
        cases hfound : doc.find? fun other ↦ other.1 = field.1 && !other.2.isNull with
        | some other =>
          obtain ⟨hother, hname, -⟩ := hfind hfound
          rw [List.inj_on_of_nodup_map hkeys hother hmem hname]
        | none =>
          have hnot := List.find?_eq_none.mp hfound field hmem
          simp [hnull] at hnot

end Row

/-! ## The statements -/

/-- The text of a document. -/
def documentText (pairs : List Text) : Text := '{' :: (", ".toList.intercalate pairs ++ ['}'])

theorem documentText_set (inner : Text) :
    documentText [fieldText "$set".toList inner] = '{' :: ("\"$set\": ".toList ++ (inner ++ ['}'])) := by
  have hkey : jsString "$set".toList ++ ": ".toList = "\"$set\": ".toList := by decide
  rw [documentText, List.intercalate_singleton, fieldText, ← List.append_assoc (jsString _), hkey, List.append_assoc]

section Statements

variable {lib} (table : CollectionName) (where_ : List ColumnValue) (cells : List (ColumnValue × DbcType))

theorem typedCells_changeRow : (changeRow table where_ cells).typedCells = cells := by
  unfold MongoRow.typedCells changeRow
  rw [Option.getD_some, List.zip_map']
  exact List.map_id cells

theorem mongoBuildDml_insert :
    mongoBuildDml .insert (some (changeRow table where_ cells)) =
      ((cells.filter (isWritten true)).mapM (renderPair true)).map fun pairs ↦
        collRef table.1 ++ (".insertOne(".toList ++ (documentText pairs ++ [')'])) := by
  obtain ⟨name, hname, hnul⟩ := table
  obtain ⟨c, more, rfl⟩ := List.exists_cons_of_ne_nil hname
  have hpairs : renderPairs true (changeRow ⟨c :: more, hname, hnul⟩ where_ cells) =
      (cells.filter (isWritten true)).mapM (renderPair true) := by
    rw [renderPairs, typedCells_changeRow]
  unfold mongoBuildDml
  simp only [changeRow] at hpairs ⊢
  rw [hpairs]
  cases (cells.filter (isWritten true)).mapM (renderPair true) <;> rfl

/-- With a filter the update depends on what is set. -/
theorem mongoBuildDml_update {filter : Text} (hfilter : renderFilter (changeRow table where_ cells) = .ok filter) :
    mongoBuildDml .update (some (changeRow table where_ cells)) =
      ((cells.filter (isWritten false)).mapM (renderPair false)).bind fun pairs ↦
        if pairs = [] then .error "no fields to update (_id cannot be changed)".toList
        else .ok (collRef table.1 ++ (".updateOne(".toList ++ (filter ++ (", ".toList ++
          (documentText [fieldText "$set".toList (documentText pairs)] ++ [')']))))) := by
  obtain ⟨name, hname, hnul⟩ := table
  obtain ⟨c, more, rfl⟩ := List.exists_cons_of_ne_nil hname
  have hrender : renderPairs false (changeRow ⟨c :: more, hname, hnul⟩ where_ cells) =
      (cells.filter (isWritten false)).mapM (renderPair false) := by
    rw [renderPairs, typedCells_changeRow]
  simp only [documentText_set]
  unfold mongoBuildDml
  simp only [changeRow] at hrender hfilter ⊢
  rw [hfilter, hrender]
  rfl

end Statements

/-! ## Inserting -/

section Insert

variable {lib} (hlib : lib.Reads) {fields : BsonFields} (hlisted : ∀ field ∈ fields, field.2.Listed)

include hlib hlisted

omit hlib hlisted in
theorem mapM_shown {piece : Text × Bson → Text} (h : ∀ field ∈ fields, pieceOf lib true field = .ok (piece field)) :
    (fields.map (shown lib)).mapM (renderPair true) =
      .ok (fields.map fun field ↦ fieldText field.1 (piece field)) := by
  rw [List.mapM_map]
  refine Traversal.mapM_eq_ok_map fun field hfield ↦ ?_
  rw [Function.comp_apply, renderPair_shown, h field hfield]
  rfl

omit hlib hlisted in
theorem exists_pieces {pairs : List Text} (h : (fields.map (shown lib)).mapM (renderPair true) = .ok pairs) :
    ∃ piece : Text × Bson → Text, ∀ field ∈ fields, pieceOf lib true field = .ok (piece field) := by
  have hpiece : ∀ field ∈ fields, ∃ piece, pieceOf lib true field = .ok piece := by
    intro field hfield
    obtain ⟨pair, hpair⟩ := Traversal.exists_of_mapM h (List.mem_map_of_mem hfield)
    rw [renderPair_shown] at hpair
    cases hpiece : pieceOf lib true field with
    | error e =>
      rw [hpiece] at hpair
      cases hpair
    | ok piece => exact ⟨piece, rfl⟩
  choose! piece hpiece using hpiece
  exact ⟨piece, hpiece⟩

/-- How the document of some fields is read, if each of them is written. -/
theorem readDocument_pieces {piece : Text × Bson → Text}
    (h : ∀ field ∈ fields, pieceOf lib true field = .ok (piece field)) :
    lib.readDocument (documentText (fields.map fun field ↦ fieldText field.1 (piece field))) =
      fields.mapM fun field ↦ (lib.value (piece field)).map fun v ↦ (field.1, v) := by
  have hwrites : ∀ m ∈ fields.map fun field ↦ (field.1, piece field), Json.WritesValue m.2 := by
    intro m hm
    obtain ⟨field, hfield, rfl⟩ := List.mem_map.mp hm
    exact writesValue_of_pieceOf hlib (hlisted field hfield) (h field hfield)
  have hmembers := membersOf_fields hwrites
  rw [List.map_map] at hmembers
  have hsplit : Json.membersOf (documentText (fields.map fun field ↦ fieldText field.1 (piece field))) =
      some (fields.map fun field ↦ (field.1, piece field)) := hmembers
  rw [LibBson.readDocument, hsplit, Option.bind_some, List.mapM_map]
  rfl

/-- A document comes back as a whole if each of its fields does. -/
theorem insertsBack_iff (table : CollectionName) {doc : BsonFields}
    (hperm : fields.Perm (doc.filter fun field ↦ !field.2.isNull)) (hnodup : (fields.map Prod.fst).Nodup) :
    InsertsBack lib table doc (fields.map (shown lib)) ↔ ∀ field ∈ fields, Comes lib field := by
  unfold InsertsBack
  rw [mongoBuildDml_insert]
  constructor
  · rintro ⟨text, read, hbuilt, hread, hback⟩ field hfield
    rw [List.filter_map] at hbuilt
    have hsub : ∀ other ∈ fields.filter (isWritten true ∘ shown lib), other ∈ fields := fun other h ↦
      (List.mem_filter.mp h).1
    cases hpairs : ((fields.filter (isWritten true ∘ shown lib)).map (shown lib)).mapM (renderPair true) with
    | error e =>
      rw [hpairs] at hbuilt
      cases hbuilt
    | ok pairs =>
      obtain ⟨piece, hpiece⟩ := exists_pieces hpairs
      obtain rfl : pairs = _ := Except.ok.inj (hpairs.symm.trans (mapM_shown hpiece))
      rw [hpairs] at hbuilt
      have htext := List.append_cancel_right (List.append_cancel_left (List.append_cancel_left (Except.ok.inj hbuilt)))
      rw [← htext, readDocument_pieces hlib (fun other h ↦ hlisted other (hsub other h)) hpiece,
        Traversal.mapM_eq_some_iff] at hread
      have hmem : field ∈ read := hback.symm.mem_iff.mp (hperm.mem_iff.mp hfield)
      obtain ⟨other, hother, hvalue⟩ := Traversal.exists_of_mem_right hread hmem
      obtain ⟨v, hv, rfl⟩ := Option.map_eq_some_iff.mp hvalue
      have hsame : other = (other.1, v) := List.inj_on_of_nodup_map hnodup (hsub other hother) hfield rfl
      rw [← hsame]
      refine ⟨(List.mem_filter.mp hother).2, piece other, hpiece other hother, ?_⟩
      rw [hv, hsame]
  · intro hcomes
    have hwritten : (fields.map (shown lib)).filter (isWritten true) = fields.map (shown lib) := by
      rw [List.filter_eq_self]
      intro item hitem
      obtain ⟨field, hfield, rfl⟩ := List.mem_map.mp hitem
      exact (hcomes field hfield).1
    have hpieces := fun field hfield ↦ (hcomes field hfield).2
    choose! piece hpiece hvalue using hpieces
    rw [hwritten, mapM_shown hpiece]
    refine ⟨_, fields, rfl, ?_, hperm⟩
    rw [readDocument_pieces hlib hlisted hpiece, Traversal.mapM_eq_some_iff, List.forall₂_same]
    intro field hfield
    rw [hvalue field hfield]
    rfl

end Insert

/-! ## Setting one field -/

section Set

variable {lib} {key piece : Text}

theorem writesValue_documentText (key : Text) (h : Json.WritesValue piece) :
    Json.WritesValue (documentText [fieldText key piece]) := by
  obtain ⟨v, hv⟩ := h
  exact ⟨.obj [(key, v)], Json.spells_obj (.cons (spells_member key hv.toPadded) .nil)⟩

theorem readSet_documentText (h : Json.WritesValue piece) {v : Bson} (hv : lib.value piece = some v) :
    lib.readSet (documentText [fieldText "$set".toList (documentText [fieldText key piece])]) = some [(key, v)] := by
  have hone (key : Text) {piece : Text} (h : Json.WritesValue piece) :
      Json.membersOf (documentText [fieldText key piece]) = some [(key, piece)] := by
    have hvalue : ∀ m ∈ [(key, piece)], Json.WritesValue m.2 := fun m hm ↦ List.mem_singleton.mp hm ▸ h
    have hmembers := membersOf_fields hvalue
    exact hmembers
  rw [LibBson.readSet, hone _ (writesValue_documentText key h)]
  simp [LibBson.readDocument, hone key h, hv]

theorem afterSet_self (path : Text) (v : Bson) : afterSet path v v = v := ite_self v

/-- A cell whose text is read as the value of its field. -/
theorem setsBack_of_reads (table : CollectionName) {v : Bson} {cell : ColumnValue × DbcType} (hkey : cell.1.1 = key)
    (h : key ≠ "_id".toList → ∀ pair, renderPair false cell = .ok pair →
      ∃ piece, pair = fieldText key piece ∧ Json.WritesValue piece ∧ lib.value piece = some v) :
    SetsBack lib table (key, v) cell := by
  intro where_ filter update hfilter hbuilt
  rw [mongoBuildDml_update table where_ [cell] hfilter] at hbuilt
  by_cases hid : key = "_id".toList
  · have hnone : [cell].filter (isWritten false) = [] := by
      simp [isWritten, hkey, hid]
    rw [hnone, List.mapM_nil] at hbuilt
    cases hbuilt
  · have hone : [cell].filter (isWritten false) = [cell] := by
      simpa [isWritten, hkey] using hid
    rw [hone, List.mapM_cons, List.mapM_nil] at hbuilt
    cases hpair : renderPair false cell with
    | error e =>
      rw [hpair] at hbuilt
      cases hbuilt
    | ok pair =>
      obtain ⟨piece, rfl, hwrites, hvalue⟩ := h hid pair hpair
      rw [hpair] at hbuilt
      have htext := List.append_cancel_right (List.append_cancel_left (List.append_cancel_left
        (List.append_cancel_left (List.append_cancel_left (Except.ok.inj hbuilt)))))
      rw [← htext]
      exact ⟨v, readSet_documentText hwrites hvalue, afterSet_self key v⟩

theorem pieceOf_update {v : Bson} (h : key ≠ "_id".toList) : pieceOf lib false (key, v) = pieceOf lib true (key, v) := by
  unfold pieceOf
  dsimp only
  rw [if_neg fun hid ↦ Bool.false_ne_true hid.1, if_neg fun hid ↦ h hid.2.1]

theorem setsBack_shown (hlib : lib.Reads) (table : CollectionName) {v : Bson} (hlisted : v.Listed)
    (hcomes : Comes lib (key, v)) : SetsBack lib table (key, v) (shown lib (key, v)) := by
  refine setsBack_of_reads table rfl fun hid pair hpair ↦ ?_
  obtain ⟨-, piece, hpiece, hvalue⟩ := hcomes
  rw [renderPair_shown, pieceOf_update hid, hpiece] at hpair
  obtain rfl := Except.ok.inj hpair
  exact ⟨piece, rfl, writesValue_of_pieceOf hlib hlisted hpiece, hvalue⟩

theorem setsBack_null (hlib : lib.Reads) (table : CollectionName) (type : DbcType) :
    SetsBack lib table (key, .null) ((key, none), type) := by
  refine setsBack_of_reads table rfl fun _ pair hpair ↦ ?_
  obtain rfl : fieldText key "null".toList = pair := Except.ok.inj hpair
  exact ⟨_, rfl, ⟨_, .null⟩, hlib.null⟩

end Set

/-! ## Documents of a page -/

variable {lib}

/-- A document with an ObjectId, a number and a document in it, and a field that is null. -/
def nestedDoc : BsonFields :=
  [("_id".toList, .oid (.ofHex "5f1d7f3e9b1e8a0012345678".toList (by decide))), ("n".toList, .int ⟨7, by decide⟩),
    ("gone".toList, .null), ("d".toList, .document [])]

theorem isPage_nestedDoc : IsPage [nestedDoc] where
  keys := by decide
  listed field hfield hnull := by
    simp only [List.flatten_cons, List.flatten_nil, List.append_nil, nestedDoc, List.mem_cons, List.not_mem_nil,
      or_false] at hfield
    rcases hfield with rfl | rfl | rfl | rfl
    · rfl
    · rfl
    · cases hnull
    · rfl
  oneKind field hfield other hother hname _ _ := by
    have hkeys : ([nestedDoc].flatten.map Prod.fst).Nodup := by decide
    rw [List.inj_on_of_nodup_map hkeys hfield hother hname]

/-- The row that shows it. -/
def nestedRow : List (Option Text) := ((mongoResultFromDocs jsonLib [nestedDoc]).rows.head?).getD []

def people : CollectionName := ⟨"people".toList, by decide, by decide⟩

end Squaero.Mongo
