import Mathlib.Order.MinMax
import Squaero.Front.EditSession
import Squaero.Lib.Records

/-!
# Pasted batches of an edit session

The inserted rows of `frontend/src/utils/editSession.ts`: rows added by hand or pasted as a batch, the cells set in
them, and the switch of a batch pasted as text between empty cells as NULL and as the empty string.
-/

namespace Squaero.Front.PasteBatches

open Squaero.Lib

/-- The pending changes with the choices of the batches pasted as text. -/
structure PendingSession extends PendingChanges where
  emptyAsNull : Option (List (ℕ × Bool))

def emptyPending : PendingSession where
  edits := []
  edits_sorted := .nil
  deletes := []
  inserts := []
  insertBatch := none
  pkModes := none
  emptyAsNull := none

/-- The items at the places that are kept. -/
def keptAt {α : Type} (keep : ℕ → Bool) (items : List α) : List α :=
  (items.zipIdx.filter fun (_, i) ↦ keep i).map (·.1)

/-- The batch of every inserted row. -/
def batchesOf (state : PendingSession) : List (Option ℕ) := state.inserts.mapIdx fun i _ ↦ state.insertBatchOf i

def addInsert (state : PendingSession) : PendingSession :=
  { state with
    inserts := state.inserts ++ [[]]
    insertBatch := state.insertBatch.map fun _ ↦ batchesOf state ++ [none] }

/-- The number of the next batch. -/
def newBatch (state : PendingSession) : ℕ :=
  ((state.pkModes.getD []).map (·.1)).foldl (fun most k ↦ max most (k + 1)) 0

def addInserts (state : PendingSession) (rows : List RowValues) (pkMode : PkMode) (emptyAsNull : Option Bool) :
    PendingSession :=
  let batch := newBatch state
  { state with
    inserts := state.inserts ++ rows
    insertBatch := some (batchesOf state ++ rows.map fun _ ↦ some batch)
    pkModes := some (Records.put batch pkMode (state.pkModes.getD []))
    emptyAsNull :=
      match emptyAsNull with
      | none => state.emptyAsNull
      | some choice => some (Records.put batch choice (state.emptyAsNull.getD [])) }

/-- How the empty cells of a batch were taken. -/
def choiceOf (state : PendingSession) (batch : ℕ) : Option Bool := state.emptyAsNull.bind (·.lookup batch)

def switchCell (on : Bool) (cell : Cell) : Cell :=
  if on then if cell = some [] then none else cell else some (cell.getD [])

def setBatchEmptyAsNull (state : PendingSession) (batch : ℕ) (on : Bool) : PendingSession :=
  match choiceOf state batch with
  | none => state
  | some current =>
    if current = on then state
    else
      { state with
        inserts := state.inserts.mapIdx fun i row ↦
          if state.insertBatchOf i ≠ some batch then row else row.map fun (k, v) ↦ (k, switchCell on v)
        emptyAsNull := some (Records.put batch on (state.emptyAsNull.getD [])) }

def removeBatch (state : PendingSession) (batch : ℕ) : PendingSession :=
  let keep := fun i ↦ decide (state.insertBatchOf i ≠ some batch)
  { state with
    inserts := keptAt keep state.inserts
    insertBatch := some (keptAt keep (batchesOf state)) }

def setPkMode (state : PendingSession) (batch : ℕ) (mode : PkMode) : PendingSession :=
  { state with pkModes := some (Records.put batch mode (state.pkModes.getD [])) }

def setInsertCell (state : PendingSession) (insertIndex : ℕ) (column : Text) (value : Cell) : PendingSession :=
  { state with
    inserts := state.inserts.mapIdx fun i row ↦ if i = insertIndex then Records.put column value row else row }

def removeInsert (state : PendingSession) (insertIndex : ℕ) : PendingSession :=
  { state with
    inserts := keptAt (· ≠ insertIndex) state.inserts
    insertBatch := state.insertBatch.map fun _ ↦ keptAt (· ≠ insertIndex) (batchesOf state) }

/-! ## Sequences of edits -/

inductive Op
  | addInsert
  | addInserts (rows : List RowValues) (pkMode : PkMode) (emptyAsNull : Option Bool)
  | setInsertCell (insertIndex : ℕ) (column : Text) (value : Cell)
  | removeInsert (insertIndex : ℕ)
  | removeBatch (batch : ℕ)
  | setPkMode (batch : ℕ) (mode : PkMode)
  | setBatchEmptyAsNull (batch : ℕ) (on : Bool)

def Op.apply (state : PendingSession) : Op → PendingSession
  | .addInsert => PasteBatches.addInsert state
  | .addInserts rows pkMode emptyAsNull => PasteBatches.addInserts state rows pkMode emptyAsNull
  | .setInsertCell insertIndex column value => PasteBatches.setInsertCell state insertIndex column value
  | .removeInsert insertIndex => PasteBatches.removeInsert state insertIndex
  | .removeBatch batch => PasteBatches.removeBatch state batch
  | .setPkMode batch mode => PasteBatches.setPkMode state batch mode
  | .setBatchEmptyAsNull batch on => PasteBatches.setBatchEmptyAsNull state batch on

/-- A session that remembers which of the rows ever added each insert is, and the batch each of those was added
with. -/
structure Tracked where
  state : PendingSession
  serials : List ℕ
  addedWith : List (Option ℕ)

def Tracked.step (t : Tracked) (op : Op) : Tracked where
  state := op.apply t.state
  serials :=
    match op with
    | .addInsert => t.serials ++ [t.addedWith.length]
    | .addInserts rows _ _ => t.serials ++ List.range' t.addedWith.length rows.length
    | .removeInsert insertIndex => keptAt (· ≠ insertIndex) t.serials
    | .removeBatch batch => keptAt (fun i ↦ t.state.insertBatchOf i ≠ some batch) t.serials
    | _ => t.serials
  addedWith :=
    match op with
    | .addInsert => t.addedWith ++ [none]
    | .addInserts rows _ _ => t.addedWith ++ rows.map fun _ ↦ some (newBatch t.state)
    | _ => t.addedWith

/-- The session after a sequence of edits. -/
def sessionAfter (ops : List Op) : Tracked :=
  ops.foldl Tracked.step { state := emptyPending, serials := [], addedWith := [] }

/-- The batches stand beside the inserts, and each insert has the batch it was added with. -/
structure Batched (t : Tracked) : Prop where
  parallel : ∀ batches, t.state.insertBatch = some batches → batches.length = t.state.inserts.length
  tracked : t.serials.length = t.state.inserts.length
  kept : ∀ i serial, t.serials[i]? = some serial → t.addedWith[serial]? = some (t.state.insertBatchOf i)

/-- For every batch pasted as text, switching its choice and switching it back changes nothing. -/
def SwitchesBack (state : PendingSession) : Prop :=
  ∀ batch current, choiceOf state batch = some current →
    setBatchEmptyAsNull (setBatchEmptyAsNull state batch !current) batch current = state

/-- The cell that text does not give under a choice: the empty string if empty cells are NULL, and else NULL. -/
def foreignCell (emptyAsNull : Bool) : Cell := if emptyAsNull then some [] else none

/-- No edit brings a cell into a batch that its text could not have given under the choice. -/
def Op.AsText (state : PendingSession) : Op → Prop
  | .addInserts rows _ (some choice) => ∀ row ∈ rows, ∀ cell ∈ row, cell.2 ≠ foreignCell choice
  | .setInsertCell insertIndex _ value => ∀ batch choice, state.insertBatchOf insertIndex = some batch →
      choiceOf state batch = some choice → value ≠ foreignCell choice
  | _ => True

/-! ## Places that are kept -/

section KeptAt

variable {α β : Type} (keep : ℕ → Bool)

theorem keptAt_map (f : α → β) (items : List α) : keptAt keep (items.map f) = (keptAt keep items).map f := by
  unfold keptAt
  rw [List.zipIdx_map, List.filter_map, List.map_map, List.map_map]
  rfl

theorem length_keptAt (items : List α) (others : List β) (h : items.length = others.length) :
    (keptAt keep items).length = (keptAt keep others).length := by
  have hunit : items.map (fun _ ↦ ()) = others.map fun _ ↦ () := by
    rw [List.map_const', List.map_const', h]
  rw [← List.length_map fun _ ↦ (), ← keptAt_map, hunit, keptAt_map, List.length_map]

theorem mem_of_mem_keptAt {item : α} {items : List α} (h : item ∈ keptAt keep items) : item ∈ items := by
  have hmem := (List.filter_sublist (l := items.zipIdx) (p := fun x ↦ keep x.2)).map Prod.fst |>.subset h
  rwa [List.zipIdx_map_fst] at hmem

end KeptAt

/-! ## The batches of the rows -/

theorem getElem?_batchesOf (state : PendingSession) (i : ℕ) :
    (batchesOf state)[i]? = state.inserts[i]?.map fun _ ↦ state.insertBatchOf i := List.getElem?_mapIdx

theorem batchesOf_of_none {state : PendingSession} (h : state.insertBatch = none) :
    batchesOf state = state.inserts.map fun _ ↦ none := by
  have hnone (i : ℕ) : state.insertBatchOf i = none := by
    unfold PendingChanges.insertBatchOf
    rw [h, Option.bind_none]
  refine List.ext_getElem? fun i ↦ ?_
  rw [getElem?_batchesOf, hnone, List.getElem?_map]

theorem batchesOf_of_some {state : PendingSession} {batches : List (Option ℕ)} (h : state.insertBatch = some batches)
    (hlength : batches.length = state.inserts.length) : batchesOf state = batches := by
  refine List.ext_getElem? fun i ↦ ?_
  rw [getElem?_batchesOf, PendingChanges.insertBatchOf, h, Option.bind_some]
  by_cases hi : i < batches.length
  · rw [List.getElem?_eq_getElem hi, List.getElem?_eq_getElem (hlength ▸ hi)]
    rfl
  · rw [List.getElem?_eq_none (not_lt.mp hi), List.getElem?_eq_none (hlength ▸ not_lt.mp hi)]
    rfl

theorem length_batchesOf (state : PendingSession) : (batchesOf state).length = state.inserts.length :=
  List.length_mapIdx

/-- The batches stand beside the inserts, where there are any. -/
def Parallel (state : PendingSession) : Prop :=
  ∀ batches, state.insertBatch = some batches → batches.length = state.inserts.length

theorem insertBatchOf_eq {state : PendingSession} (h : Parallel state) (i : ℕ) :
    state.insertBatchOf i = (batchesOf state)[i]?.join := by
  unfold PendingChanges.insertBatchOf
  cases hbatches : state.insertBatch with
  | none =>
    rw [batchesOf_of_none hbatches, Option.bind_none, List.getElem?_map]
    cases state.inserts[i]? <;> rfl
  | some batches => rw [batchesOf_of_some hbatches (h batches hbatches), Option.bind_some]

theorem batchesOf_addInsert (state : PendingSession) :
    batchesOf (addInsert state) = batchesOf state ++ [none] := by
  cases hbatches : state.insertBatch with
  | none =>
    have hnone : (addInsert state).insertBatch = none := by
      unfold addInsert
      rw [hbatches]
      rfl
    rw [batchesOf_of_none hnone, batchesOf_of_none hbatches]
    exact List.map_append
  | some batches =>
    have hsome : (addInsert state).insertBatch = some (batchesOf state ++ [none]) := by
      unfold addInsert
      rw [hbatches]
      rfl
    refine batchesOf_of_some hsome ?_
    rw [addInsert, List.length_append, List.length_append, length_batchesOf]
    rfl

theorem batchesOf_addInserts (state : PendingSession) (rows : List RowValues) (pkMode : PkMode)
    (emptyAsNull : Option Bool) :
    batchesOf (addInserts state rows pkMode emptyAsNull) =
      batchesOf state ++ rows.map fun _ ↦ some (newBatch state) := by
  refine batchesOf_of_some rfl ?_
  rw [List.length_append, length_batchesOf, List.length_map]
  exact List.length_append.symm

theorem batchesOf_removeBatch (state : PendingSession) (batch : ℕ) :
    batchesOf (removeBatch state batch) =
      keptAt (fun i ↦ state.insertBatchOf i ≠ some batch) (batchesOf state) :=
  batchesOf_of_some rfl (length_keptAt _ _ _ (length_batchesOf state))

theorem batchesOf_removeInsert (state : PendingSession) (insertIndex : ℕ) :
    batchesOf (removeInsert state insertIndex) = keptAt (· ≠ insertIndex) (batchesOf state) := by
  cases hbatches : state.insertBatch with
  | none =>
    have hnone : (removeInsert state insertIndex).insertBatch = none := by
      unfold removeInsert
      rw [hbatches]
      rfl
    rw [batchesOf_of_none hnone, batchesOf_of_none hbatches, keptAt_map]
    rfl
  | some batches =>
    have hsome : (removeInsert state insertIndex).insertBatch = some (keptAt (· ≠ insertIndex) (batchesOf state)) := by
      unfold removeInsert
      rw [hbatches]
      rfl
    exact batchesOf_of_some hsome (length_keptAt _ _ _ (length_batchesOf state))

/-- Where the batches stay as they are and the rows only change inside. -/
theorem batchesOf_congr {state state' : PendingSession} (hbatches : state'.insertBatch = state.insertBatch)
    (hlength : state'.inserts.length = state.inserts.length) : batchesOf state' = batchesOf state := by
  have hsame (i : ℕ) : state'.insertBatchOf i = state.insertBatchOf i := by
    unfold PendingChanges.insertBatchOf
    rw [hbatches]
  refine List.ext_getElem? fun i ↦ ?_
  rw [getElem?_batchesOf, getElem?_batchesOf, hsame]
  by_cases hi : i < state.inserts.length
  · rw [List.getElem?_eq_getElem hi, List.getElem?_eq_getElem (hlength ▸ hi)]
    rfl
  · rw [List.getElem?_eq_none (not_lt.mp hi), List.getElem?_eq_none (hlength ▸ not_lt.mp hi)]

/-- What the switch does where it does anything. -/
theorem setBatchEmptyAsNull_cases (state : PendingSession) (batch : ℕ) (on : Bool) :
    choiceOf state batch ≠ some (!on) ∧ setBatchEmptyAsNull state batch on = state ∨
      choiceOf state batch = some (!on) ∧ setBatchEmptyAsNull state batch on =
        { state with
          inserts := state.inserts.mapIdx fun i row ↦
            if state.insertBatchOf i ≠ some batch then row else row.map fun (k, v) ↦ (k, switchCell on v)
          emptyAsNull := some (Records.put batch on (state.emptyAsNull.getD [])) } := by
  unfold setBatchEmptyAsNull
  cases hchoice : choiceOf state batch with
  | none => exact .inl ⟨nofun, rfl⟩
  | some current =>
    dsimp only
    split_ifs with hcurrent
    · refine .inl ⟨fun hother ↦ ?_, rfl⟩
      rw [hcurrent] at hother
      exact (Bool.eq_not_self on).mp (Option.some.inj hother)
    · exact .inr ⟨congrArg some (Bool.eq_not.mpr hcurrent), rfl⟩

theorem Parallel.apply {state : PendingSession} (h : Parallel state) (op : Op) : Parallel (op.apply state) := by
  intro batches hbatches
  cases op with
  | addInsert =>
    obtain ⟨_, -, rfl⟩ := Option.map_eq_some_iff.mp hbatches
    change (batchesOf state ++ [none]).length = (state.inserts ++ [[]]).length
    rw [List.length_append, List.length_append, length_batchesOf]
    rfl
  | addInserts rows pkMode emptyAsNull =>
    obtain rfl := Option.some.inj hbatches
    change (batchesOf state ++ rows.map fun _ ↦ some (newBatch state)).length = (state.inserts ++ rows).length
    rw [List.length_append, List.length_append, length_batchesOf, List.length_map]
  | setInsertCell insertIndex column value =>
    exact (h batches hbatches).trans List.length_mapIdx.symm
  | removeInsert insertIndex =>
    obtain ⟨_, -, rfl⟩ := Option.map_eq_some_iff.mp hbatches
    exact length_keptAt _ _ _ (length_batchesOf state)
  | removeBatch batch =>
    obtain rfl := Option.some.inj hbatches
    exact length_keptAt _ _ _ (length_batchesOf state)
  | setPkMode batch mode => exact h batches hbatches
  | setBatchEmptyAsNull batch on =>
    change (setBatchEmptyAsNull state batch on).insertBatch = some batches at hbatches
    change batches.length = (setBatchEmptyAsNull state batch on).inserts.length
    rcases setBatchEmptyAsNull_cases state batch on with ⟨-, hsame⟩ | ⟨-, hswitched⟩
    · rw [hsame] at hbatches ⊢
      exact h batches hbatches
    · rw [hswitched] at hbatches ⊢
      exact (h batches hbatches).trans List.length_mapIdx.symm

/-! ## What a step keeps -/

/-- No number is handed out that a batch has or a choice is kept for. -/
structure Fresh (t : Tracked) : Prop where
  batches : ∀ batch, some batch ∈ t.addedWith → batch < newBatch t.state
  choices : ∀ batch choice, choiceOf t.state batch = some choice → batch < newBatch t.state

theorem lt_foldl_iff (keys : List ℕ) (start batch : ℕ) :
    batch < keys.foldl (fun most k ↦ max most (k + 1)) start ↔ batch < start ∨ ∃ k ∈ keys, batch ≤ k := by
  induction keys generalizing start with
  | nil => simp
  | cons k keys ih =>
    rw [List.foldl_cons, ih, lt_max_iff, List.exists_mem_cons_iff, or_assoc, Nat.lt_succ_iff]

theorem lt_newBatch_iff (state : PendingSession) (batch : ℕ) :
    batch < newBatch state ↔ ∃ k ∈ (state.pkModes.getD []).map (·.1), batch ≤ k := by
  rw [newBatch, lt_foldl_iff]
  exact or_iff_right (Nat.not_lt_zero _)

/-- Assigning a mode takes no number back. -/
theorem newBatch_le_of_put {state state' : PendingSession} {batch : ℕ} {mode : PkMode}
    (h : state'.pkModes = some (Records.put batch mode (state.pkModes.getD []))) :
    newBatch state ≤ newBatch state' := by
  by_contra hlt
  push Not at hlt
  obtain ⟨k, hk, hle⟩ := (lt_newBatch_iff state _).mp hlt
  have hmem : k ∈ (state'.pkModes.getD []).map (·.1) := by
    rw [h]
    exact Records.mem_keys_put.mpr (.inr hk)
  exact lt_irrefl _ ((lt_newBatch_iff state' _).mpr ⟨k, hmem, hle⟩)

theorem newBatch_addInserts_lt (state : PendingSession) (rows : List RowValues) (pkMode : PkMode)
    (emptyAsNull : Option Bool) : newBatch state < newBatch (addInserts state rows pkMode emptyAsNull) := by
  refine (lt_newBatch_iff _ _).mpr ⟨newBatch state, ?_, le_rfl⟩
  exact Records.mem_keys_put.mpr (.inl rfl)

theorem newBatch_congr {state state' : PendingSession} (h : state'.pkModes = state.pkModes) :
    newBatch state' = newBatch state := by
  unfold newBatch
  rw [h]

theorem pkModes_setBatchEmptyAsNull (state : PendingSession) (batch : ℕ) (on : Bool) :
    (setBatchEmptyAsNull state batch on).pkModes = state.pkModes := by
  rcases setBatchEmptyAsNull_cases state batch on with ⟨-, hsame⟩ | ⟨-, hswitched⟩
  · rw [hsame]
  · rw [hswitched]

/-- The number of the next batch never goes back. -/
theorem newBatch_le_apply (state : PendingSession) (op : Op) : newBatch state ≤ newBatch (op.apply state) := by
  cases op with
  | addInsert => exact (newBatch_congr rfl).ge
  | addInserts rows pkMode emptyAsNull => exact (newBatch_addInserts_lt state rows pkMode emptyAsNull).le
  | setInsertCell insertIndex column value => exact (newBatch_congr rfl).ge
  | removeInsert insertIndex => exact (newBatch_congr rfl).ge
  | removeBatch batch => exact (newBatch_congr rfl).ge
  | setPkMode batch mode => exact newBatch_le_of_put rfl
  | setBatchEmptyAsNull batch on => exact (newBatch_congr (pkModes_setBatchEmptyAsNull state batch on)).ge

theorem choiceOf_addInserts {state : PendingSession} {rows : List RowValues} {pkMode : PkMode}
    {emptyAsNull : Option Bool} {batch : ℕ} {choice : Bool}
    (h : choiceOf (addInserts state rows pkMode emptyAsNull) batch = some choice) :
    batch = newBatch state ∧ emptyAsNull = some choice ∨ choiceOf state batch = some choice := by
  cases emptyAsNull with
  | none => exact .inr h
  | some given =>
    change (Records.put (newBatch state) given (state.emptyAsNull.getD [])).lookup batch = some choice at h
    rw [Records.lookup_put] at h
    split_ifs at h with hbatch
    · exact .inl ⟨hbatch, h⟩
    · refine .inr ?_
      unfold choiceOf
      cases hchoices : state.emptyAsNull with
      | none =>
        rw [hchoices] at h
        cases h
      | some choices => rwa [hchoices] at h

/-- The switch gives its batch the choice and leaves the others theirs. -/
theorem choiceOf_setBatchEmptyAsNull {state : PendingSession} {batch other : ℕ} {on choice : Bool}
    (hswitch : choiceOf state batch = some choice) :
    choiceOf (setBatchEmptyAsNull state batch on) other = if other = batch then some on else choiceOf state other := by
  rcases setBatchEmptyAsNull_cases state batch on with ⟨hnot, hsame⟩ | ⟨hchoice, hswitched⟩
  · rw [hsame]
    split_ifs with hother
    · rw [hswitch, Ne, Option.some.injEq, Bool.not_eq_not, ← Option.some.injEq] at hnot
      rw [hother, hswitch, hnot]
    · rfl
  · rw [hswitched]
    change (Records.put batch on (state.emptyAsNull.getD [])).lookup other = _
    rw [Records.lookup_put]
    split_ifs with hother
    · rfl
    · unfold choiceOf at hchoice ⊢
      cases hchoices : state.emptyAsNull with
      | none =>
        rw [hchoices] at hchoice
        cases hchoice
      | some choices => rfl

theorem Fresh.step {t : Tracked} (h : Fresh t) (op : Op) : Fresh (t.step op) := by
  have hle : newBatch t.state ≤ newBatch (t.step op).state := newBatch_le_apply t.state op
  constructor
  · intro batch hmem
    cases op with
    | addInsert =>
      rcases List.mem_append.mp hmem with hold | hnew
      · exact (h.batches batch hold).trans_le hle
      · cases List.mem_singleton.mp hnew
    | addInserts rows pkMode emptyAsNull =>
      rcases List.mem_append.mp hmem with hold | hnew
      · exact (h.batches batch hold).trans_le hle
      · obtain ⟨_, -, heq⟩ := List.mem_map.mp hnew
        rw [← Option.some.inj heq]
        exact newBatch_addInserts_lt t.state rows pkMode emptyAsNull
    | setInsertCell insertIndex column value => exact (h.batches batch hmem).trans_le hle
    | removeInsert insertIndex => exact (h.batches batch hmem).trans_le hle
    | removeBatch other => exact (h.batches batch hmem).trans_le hle
    | setPkMode other mode => exact (h.batches batch hmem).trans_le hle
    | setBatchEmptyAsNull other on => exact (h.batches batch hmem).trans_le hle
  · intro batch choice hchoice
    cases op with
    | addInserts rows pkMode emptyAsNull =>
      rcases choiceOf_addInserts hchoice with ⟨rfl, -⟩ | hold
      · exact newBatch_addInserts_lt t.state rows pkMode emptyAsNull
      · exact (h.choices batch choice hold).trans_le hle
    | setBatchEmptyAsNull other on =>
      change choiceOf (setBatchEmptyAsNull t.state other on) batch = some choice at hchoice
      rcases setBatchEmptyAsNull_cases t.state other on with ⟨-, hsame⟩ | ⟨hother, -⟩
      · rw [hsame] at hchoice
        exact (h.choices batch choice hchoice).trans_le hle
      · rw [choiceOf_setBatchEmptyAsNull hother] at hchoice
        split_ifs at hchoice with hbatch
        · rw [hbatch]
          exact (h.choices other _ hother).trans_le hle
        · exact (h.choices batch choice hchoice).trans_le hle
    | addInsert => exact (h.choices batch choice hchoice).trans_le hle
    | setInsertCell insertIndex column value => exact (h.choices batch choice hchoice).trans_le hle
    | removeInsert insertIndex => exact (h.choices batch choice hchoice).trans_le hle
    | removeBatch other => exact (h.choices batch choice hchoice).trans_le hle
    | setPkMode other mode => exact (h.choices batch choice hchoice).trans_le hle

/-- The serials lead to the batches of the rows. -/
def Kept (t : Tracked) : Prop := t.serials.map (fun serial ↦ t.addedWith[serial]?) = (batchesOf t.state).map some

/-- Rows that are added later have other serials. -/
theorem Kept.append {t : Tracked} (h : Kept t) (more : List (Option ℕ)) :
    t.serials.map (fun serial ↦ (t.addedWith ++ more)[serial]?) = (batchesOf t.state).map some := by
  rw [← h]
  refine List.map_congr_left fun serial hmem ↦ List.getElem?_append_left ?_
  have hsome := List.mem_map_of_mem (f := fun serial ↦ t.addedWith[serial]?) hmem
  rw [h] at hsome
  obtain ⟨batch, -, hbatch⟩ := List.mem_map.mp hsome
  exact (List.getElem?_eq_some_iff.mp hbatch.symm).1

theorem map_range'_append {α : Type} (before more : List α) :
    (List.range' before.length more.length).map (fun serial ↦ (before ++ more)[serial]?) = more.map some := by
  refine List.ext_getElem (by rw [List.length_map, List.length_map, List.length_range']) fun i _ hi ↦ ?_
  rw [List.length_map] at hi
  rw [List.getElem_map, List.getElem_map, List.getElem_range', Nat.one_mul, List.getElem?_append_right (Nat.le_add_right _ _),
    Nat.add_sub_cancel_left, List.getElem?_eq_getElem hi]

theorem batchesOf_setBatchEmptyAsNull (state : PendingSession) (batch : ℕ) (on : Bool) :
    batchesOf (setBatchEmptyAsNull state batch on) = batchesOf state := by
  rcases setBatchEmptyAsNull_cases state batch on with ⟨-, hsame⟩ | ⟨-, hswitched⟩
  · rw [hsame]
  · rw [hswitched]
    exact batchesOf_congr rfl List.length_mapIdx

theorem Kept.step {t : Tracked} (h : Kept t) (op : Op) : Kept (t.step op) := by
  cases op with
  | addInsert =>
    change (t.serials ++ [t.addedWith.length]).map (fun serial ↦ (t.addedWith ++ [none])[serial]?) =
      (batchesOf (addInsert t.state)).map some
    rw [List.map_append, h.append, batchesOf_addInsert, List.map_append]
    exact congrArg _ (map_range'_append t.addedWith [none])
  | addInserts rows pkMode emptyAsNull =>
    change (t.serials ++ List.range' t.addedWith.length rows.length).map
        (fun serial ↦ (t.addedWith ++ rows.map fun _ ↦ some (newBatch t.state))[serial]?) =
      (batchesOf (addInserts t.state rows pkMode emptyAsNull)).map some
    have hnew := map_range'_append t.addedWith (rows.map fun _ ↦ some (newBatch t.state))
    rw [List.length_map] at hnew
    rw [List.map_append, h.append, batchesOf_addInserts, List.map_append, hnew]
  | setInsertCell insertIndex column value =>
    have hsame : batchesOf (setInsertCell t.state insertIndex column value) = batchesOf t.state :=
      batchesOf_congr rfl List.length_mapIdx
    exact h.trans (congrArg _ hsame.symm)
  | removeInsert insertIndex =>
    change (keptAt (· ≠ insertIndex) t.serials).map (fun serial ↦ t.addedWith[serial]?) =
      (batchesOf (removeInsert t.state insertIndex)).map some
    rw [← keptAt_map, h, batchesOf_removeInsert, keptAt_map]
  | removeBatch batch =>
    change (keptAt (fun i ↦ t.state.insertBatchOf i ≠ some batch) t.serials).map (fun serial ↦ t.addedWith[serial]?) =
      (batchesOf (removeBatch t.state batch)).map some
    rw [← keptAt_map, h, batchesOf_removeBatch, keptAt_map]
  | setPkMode batch mode => exact h
  | setBatchEmptyAsNull batch on => exact h.trans (congrArg _ (batchesOf_setBatchEmptyAsNull t.state batch on).symm)

theorem batched_of_kept {t : Tracked} (hparallel : Parallel t.state) (h : Kept t) : Batched t where
  parallel := hparallel
  tracked := by
    have hlength := congrArg List.length h
    rwa [List.length_map, List.length_map, length_batchesOf] at hlength
  kept i serial hserial := by
    have hplace : (t.serials.map fun serial ↦ t.addedWith[serial]?)[i]? = ((batchesOf t.state).map some)[i]? := by
      rw [h]
    rw [List.getElem?_map, List.getElem?_map, hserial, Option.map_some] at hplace
    obtain ⟨batch, hbatch, heq⟩ := Option.map_eq_some_iff.mp hplace.symm
    rw [← heq, insertBatchOf_eq hparallel, hbatch]
    rfl

/-! ## The cells of the batches -/

/-- The rows with their batches. -/
def rowsOf (state : PendingSession) : List (Option ℕ × RowValues) := (batchesOf state).zip state.inserts

theorem getElem?_rowsOf (state : PendingSession) (i : ℕ) :
    (rowsOf state)[i]? = state.inserts[i]?.map fun row ↦ (state.insertBatchOf i, row) := by
  rw [rowsOf, List.zip, List.getElem?_zipWith, getElem?_batchesOf]
  cases state.inserts[i]? <;> rfl

theorem rowsOf_map_snd (state : PendingSession) : (rowsOf state).map Prod.snd = state.inserts :=
  List.map_snd_zip (length_batchesOf state).ge

theorem keptAt_zip {α β : Type} (keep : ℕ → Bool) {as : List α} {bs : List β} (h : as.length = bs.length) :
    (keptAt keep as).zip (keptAt keep bs) = keptAt keep (as.zip bs) := by
  have hfst : keptAt keep as = (keptAt keep (as.zip bs)).map Prod.fst := by
    rw [← keptAt_map, List.map_fst_zip h.le]
  have hsnd : keptAt keep bs = (keptAt keep (as.zip bs)).map Prod.snd := by
    rw [← keptAt_map, List.map_snd_zip h.ge]
  exact (List.zip_of_prod hfst.symm hsnd.symm).symm

/-- Every cell of a batch pasted as text is one that text can give under the batch's choice. -/
def Clean (state : PendingSession) : Prop :=
  ∀ p ∈ rowsOf state, ∀ batch choice, p.1 = some batch → choiceOf state batch = some choice →
    ∀ cell ∈ p.2, cell.2 ≠ foreignCell choice

theorem switchCell_switchCell_iff (current : Bool) (cell : Cell) :
    switchCell current (switchCell (!current) cell) = cell ↔ cell ≠ foreignCell current := by
  cases current
  · by_cases hempty : cell = some []
    · rw [hempty]
      exact iff_of_true rfl nofun
    · cases cell with
      | none => exact iff_of_false nofun fun h ↦ h rfl
      | some text => 
        refine iff_of_true ?_ nofun
        unfold switchCell
        simp [hempty]
  · cases cell with
    | none => exact iff_of_true rfl nofun
    | some text =>
      by_cases htext : text = []
      · rw [htext]
        exact iff_of_false nofun fun h ↦ h rfl
      · refine iff_of_true ?_ fun h ↦ htext (Option.some.inj h)
        unfold switchCell
        simp [htext]

/-- The rows with the cells of a batch changed. -/
def mapCells (state : PendingSession) (batch : ℕ) (change : Cell → Cell) : List RowValues :=
  (rowsOf state).map fun p ↦ if p.1 ≠ some batch then p.2 else p.2.map fun (k, v) ↦ (k, change v)

theorem mapIdx_eq_mapCells (state : PendingSession) (batch : ℕ) (change : Cell → Cell) :
    (state.inserts.mapIdx fun i row ↦
      if state.insertBatchOf i ≠ some batch then row else row.map fun (k, v) ↦ (k, change v)) =
        mapCells state batch change := by
  refine List.ext_getElem? fun i ↦ ?_
  rw [mapCells, List.getElem?_mapIdx, List.getElem?_map, getElem?_rowsOf, Option.map_map]
  rfl

/-- Switching a batch and switching it back is to switch its cells twice. -/
theorem switch_switch {state : PendingSession} {batch : ℕ} {current : Bool} (h : choiceOf state batch = some current) :
    setBatchEmptyAsNull (setBatchEmptyAsNull state batch !current) batch current =
      { state with inserts := mapCells state batch fun cell ↦ switchCell current (switchCell (!current) cell) } := by
  have hchoice : choiceOf (setBatchEmptyAsNull state batch !current) batch = some !current := by
    rw [choiceOf_setBatchEmptyAsNull h, if_pos rfl]
  rcases setBatchEmptyAsNull_cases state batch !current with ⟨hnot, -⟩ | ⟨-, hfirst⟩
  · exact absurd (h.trans (congrArg some (Bool.not_not current).symm)) hnot
  rcases setBatchEmptyAsNull_cases (setBatchEmptyAsNull state batch !current) batch current with
    ⟨hnot, -⟩ | ⟨-, hsecond⟩
  · exact absurd hchoice hnot
  obtain ⟨choices, hchoices, hlookup⟩ := Option.bind_eq_some_iff.mp h
  have hback : some (Records.put batch current
      ((some (Records.put batch (!current) (state.emptyAsNull.getD []))).getD [])) = state.emptyAsNull := by
    rw [Option.getD_some, Records.put_put, hchoices, Option.getD_some, Records.put_of_lookup hlookup]
  have htwice : ((state.inserts.mapIdx fun i row ↦
      if state.insertBatchOf i ≠ some batch then row else row.map fun (k, v) ↦ (k, switchCell (!current) v)).mapIdx
        fun i row ↦ if state.insertBatchOf i ≠ some batch then row else row.map fun (k, v) ↦ (k, switchCell current v)) =
      mapCells state batch fun cell ↦ switchCell current (switchCell (!current) cell) := by
    rw [List.mapIdx_mapIdx, ← mapIdx_eq_mapCells]
    refine congrArg₂ _ (funext fun i ↦ funext fun row ↦ ?_) rfl
    by_cases hbatch : state.insertBatchOf i ≠ some batch
    · rw [Function.comp_apply, if_pos hbatch, if_pos hbatch, if_pos hbatch]
    · rw [Function.comp_apply, if_neg hbatch, if_neg hbatch, if_neg hbatch, List.map_map]
      rfl
  rw [hsecond, hfirst, ← htwice]
  exact congrArg₂ (fun inserts choices ↦ { state with inserts := inserts, emptyAsNull := choices }) rfl hback

theorem mapCells_eq_iff {state : PendingSession} {batch : ℕ} {change : Cell → Cell} :
    mapCells state batch change = state.inserts ↔
      ∀ p ∈ rowsOf state, p.1 = some batch → ∀ cell ∈ p.2, change cell.2 = cell.2 := by
  conv_lhs => rw [← rowsOf_map_snd state]
  rw [mapCells, List.map_inj_left]
  refine forall₂_congr fun p _ ↦ ?_
  by_cases hbatch : p.1 = some batch
  · rw [if_neg (not_not.mpr hbatch)]
    calc p.2.map (fun (k, v) ↦ (k, change v)) = p.2
        ↔ p.2.map (fun (k, v) ↦ (k, change v)) = p.2.map id := by rw [List.map_id]
      _ ↔ ∀ cell ∈ p.2, (cell.1, change cell.2) = cell := List.map_inj_left
      _ ↔ ∀ cell ∈ p.2, change cell.2 = cell.2 :=
        forall₂_congr fun cell _ ↦ ⟨fun h ↦ congrArg Prod.snd h, fun h ↦ Prod.ext rfl h⟩
      _ ↔ (p.1 = some batch → ∀ cell ∈ p.2, change cell.2 = cell.2) := ⟨fun h _ ↦ h, fun h ↦ h hbatch⟩
  · rw [if_pos hbatch]
    exact iff_of_true rfl fun h ↦ absurd h hbatch

theorem switchesBack_iff (state : PendingSession) : SwitchesBack state ↔ Clean state := by
  have hback {batch : ℕ} {current : Bool} (h : choiceOf state batch = some current) :
      setBatchEmptyAsNull (setBatchEmptyAsNull state batch !current) batch current = state ↔
        ∀ p ∈ rowsOf state, p.1 = some batch → ∀ cell ∈ p.2, cell.2 ≠ foreignCell current := by
    rw [switch_switch h]
    calc _ ↔ mapCells state batch (fun cell ↦ switchCell current (switchCell (!current) cell)) = state.inserts :=
        ⟨fun heq ↦ congrArg (fun s : PendingSession ↦ s.inserts) heq, fun heq ↦ by rw [heq]⟩
      _ ↔ _ := mapCells_eq_iff
      _ ↔ _ := by simp only [switchCell_switchCell_iff]
  constructor
  · intro h p hp batch choice hbatch hchoice
    exact (hback hchoice).mp (h batch choice hchoice) p hp hbatch
  · intro h batch choice hchoice
    exact (hback hchoice).mpr fun p hp hbatch ↦ h p hp batch choice hbatch hchoice

/-! ## Sequences of edits keep the batches -/

/-- All that holds of a session after any sequence of edits. -/
structure Sound (t : Tracked) : Prop where
  parallel : Parallel t.state
  kept : Kept t
  fresh : Fresh t

theorem Sound.step {t : Tracked} (h : Sound t) (op : Op) : Sound (t.step op) where
  parallel := h.parallel.apply op
  kept := h.kept.step op
  fresh := h.fresh.step op

theorem sessionAfter_concat (ops : List Op) (op : Op) : sessionAfter (ops ++ [op]) = (sessionAfter ops).step op := by
  rw [sessionAfter, List.foldl_append]
  rfl

theorem sound_sessionAfter (ops : List Op) : Sound (sessionAfter ops) := by
  induction ops using List.reverseRecOn with
  | nil => exact ⟨nofun, rfl, nofun, nofun⟩
  | append_singleton ops op ih =>
    rw [sessionAfter_concat]
    exact ih.step op

theorem Sound.lt_newBatch {t : Tracked} (h : Sound t) {batch : ℕ} (hmem : some batch ∈ batchesOf t.state) :
    batch < newBatch t.state := by
  have hsome := List.mem_map_of_mem (f := some) hmem
  rw [← h.kept] at hsome
  obtain ⟨serial, -, hserial⟩ := List.mem_map.mp hsome
  exact h.fresh.batches batch (List.mem_of_getElem? hserial)

theorem rowsOf_addInserts (state : PendingSession) (rows : List RowValues) (pkMode : PkMode)
    (emptyAsNull : Option Bool) :
    rowsOf (addInserts state rows pkMode emptyAsNull) =
      rowsOf state ++ rows.map fun row ↦ (some (newBatch state), row) := by
  rw [rowsOf, batchesOf_addInserts]
  change (batchesOf state ++ rows.map fun _ ↦ some (newBatch state)).zip (state.inserts ++ rows) = _
  rw [List.zip_append (length_batchesOf state), rowsOf]
  refine congrArg _ ?_
  conv_lhs => arg 2; rw [← List.map_id rows]
  exact List.zip_map'

theorem mem_rowsOf_of_keptAt {state : PendingSession} {keep : ℕ → Bool} {state' : PendingSession}
    (hbatches : batchesOf state' = keptAt keep (batchesOf state)) (hinserts : state'.inserts = keptAt keep state.inserts)
    {p : Option ℕ × RowValues} (hp : p ∈ rowsOf state') : p ∈ rowsOf state := by
  rw [rowsOf, hbatches, hinserts, keptAt_zip keep (length_batchesOf state)] at hp
  exact mem_of_mem_keptAt keep hp

theorem rowsOf_addInsert (state : PendingSession) : rowsOf (addInsert state) = rowsOf state ++ [(none, [])] := by
  rw [rowsOf, batchesOf_addInsert]
  exact List.zip_append (length_batchesOf state)

theorem choiceOf_addInserts_new (state : PendingSession) (rows : List RowValues) (pkMode : PkMode) (choice : Bool) :
    choiceOf (addInserts state rows pkMode (some choice)) (newBatch state) = some choice :=
  Records.lookup_put_self _ _ _

theorem clean_addInserts_iff {t : Tracked} (h : Sound t) (hclean : Clean t.state) (rows : List RowValues)
    (pkMode : PkMode) (emptyAsNull : Option Bool) :
    Clean (addInserts t.state rows pkMode emptyAsNull) ↔ Op.AsText t.state (.addInserts rows pkMode emptyAsNull) := by
  have hnone (choice : Bool) : choiceOf t.state (newBatch t.state) ≠ some choice :=
    fun hchoice ↦ lt_irrefl _ (h.fresh.choices _ _ hchoice)
  unfold Clean
  rw [rowsOf_addInserts, List.forall_mem_append, and_iff_right]
  · constructor
    · intro hnew
      cases emptyAsNull with
      | none => trivial
      | some choice =>
        intro row hrow
        exact hnew _ (List.mem_map_of_mem hrow) _ choice rfl (choiceOf_addInserts_new t.state rows pkMode choice)
    · intro htext p hp batch choice hbatch hchoice
      obtain ⟨row, hrow, rfl⟩ := List.mem_map.mp hp
      obtain rfl := Option.some.inj hbatch
      rcases choiceOf_addInserts hchoice with ⟨-, rfl⟩ | hold
      · exact htext row hrow
      · exact absurd hold (hnone choice)
  · intro p hp batch choice hbatch hchoice
    rcases choiceOf_addInserts hchoice with ⟨rfl, -⟩ | hold
    · have hmem : some (newBatch t.state) ∈ batchesOf t.state := hbatch ▸ (List.of_mem_zip hp).1
      exact absurd (h.lt_newBatch hmem) (lt_irrefl _)
    · exact hclean p hp batch choice hbatch hold

theorem getElem?_rowsOf_setInsertCell (state : PendingSession) (insertIndex : ℕ) (column : Text) (value : Cell)
    (i : ℕ) :
    (rowsOf (setInsertCell state insertIndex column value))[i]? = (rowsOf state)[i]?.map fun p ↦
      (p.1, if i = insertIndex then Records.put column value p.2 else p.2) := by
  rw [getElem?_rowsOf, getElem?_rowsOf, Option.map_map, setInsertCell, List.getElem?_mapIdx, Option.map_map]
  rfl

theorem clean_setInsertCell_iff {t : Tracked} (h : Sound t) (hclean : Clean t.state) (insertIndex : ℕ) (column : Text)
    (value : Cell) :
    Clean (setInsertCell t.state insertIndex column value) ↔
      Op.AsText t.state (.setInsertCell insertIndex column value) := by
  constructor
  · intro hafter batch choice hbatch hchoice
    have hplace : insertIndex < t.state.inserts.length := by
      rw [insertBatchOf_eq h.parallel] at hbatch
      obtain ⟨some_batch, hsome⟩ := Option.ne_none_iff_exists'.mp fun hnone : (batchesOf t.state)[insertIndex]? = none ↦ by
        rw [hnone] at hbatch
        cases hbatch
      rw [← length_batchesOf]
      exact (List.getElem?_eq_some_iff.mp hsome).1
    have hrow : (rowsOf (setInsertCell t.state insertIndex column value))[insertIndex]? =
        some (some batch, Records.put column value t.state.inserts[insertIndex]) := by
      rw [getElem?_rowsOf_setInsertCell, getElem?_rowsOf, List.getElem?_eq_getElem hplace, hbatch, Option.map_some,
        Option.map_some, if_pos rfl]
    exact hafter _ (List.mem_of_getElem? hrow) batch choice rfl hchoice (column, value) (Records.mem_put_self _ _ _)
  · intro htext p hp batch choice hbatch hchoice cell hcell
    obtain ⟨i, hi⟩ := List.mem_iff_getElem?.mp hp
    rw [getElem?_rowsOf_setInsertCell] at hi
    obtain ⟨q, hq, rfl⟩ := Option.map_eq_some_iff.mp hi
    have hold := hclean q (List.mem_of_getElem? hq) batch choice hbatch hchoice
    dsimp only at hcell
    split_ifs at hcell with hindex
    · rcases Records.mem_put hcell with rfl | hcell
      · refine htext batch choice ?_ hchoice
        rw [getElem?_rowsOf] at hq
        obtain ⟨row, -, rfl⟩ := Option.map_eq_some_iff.mp hq
        exact hindex ▸ hbatch
      · exact hold cell hcell
    · exact hold cell hcell

theorem switchCell_ne (on : Bool) (cell : Cell) : switchCell on cell ≠ foreignCell on := by
  cases on
  · exact nofun
  · unfold switchCell foreignCell
    rw [if_pos rfl, if_pos rfl]
    split_ifs with hempty
    · exact nofun
    · exact hempty

/-- The switch makes its batch what the text gives under the new choice. -/
theorem clean_setBatchEmptyAsNull {state : PendingSession} (hclean : Clean state) (batch : ℕ) (on : Bool) :
    Clean (setBatchEmptyAsNull state batch on) := by
  rcases setBatchEmptyAsNull_cases state batch on with ⟨-, hsame⟩ | ⟨hother, hswitched⟩
  · rwa [hsame]
  intro p hp other choice hbatch hchoice cell hcell
  rw [choiceOf_setBatchEmptyAsNull hother] at hchoice
  obtain ⟨i, hi⟩ := List.mem_iff_getElem?.mp hp
  have hrow : (rowsOf (setBatchEmptyAsNull state batch on))[i]? = (rowsOf state)[i]?.map fun q ↦
      (q.1, if q.1 ≠ some batch then q.2 else q.2.map fun (k, v) ↦ (k, switchCell on v)) := by
    rw [hswitched, getElem?_rowsOf, getElem?_rowsOf, Option.map_map, List.getElem?_mapIdx, Option.map_map]
    rfl
  rw [hrow] at hi
  obtain ⟨q, hq, rfl⟩ := Option.map_eq_some_iff.mp hi
  by_cases hsame : other = batch
  · rw [if_pos hsame] at hchoice
    rw [if_neg (not_not.mpr (hsame ▸ hbatch))] at hcell
    obtain ⟨old, -, rfl⟩ := List.mem_map.mp hcell
    rw [← Option.some.inj hchoice]
    exact switchCell_ne on old.2
  · have hother : q.1 ≠ some batch := fun heq ↦ hsame (Option.some.inj (hbatch.symm.trans heq))
    rw [if_neg hsame] at hchoice
    rw [if_pos hother] at hcell
    exact hclean q (List.mem_of_getElem? hq) other choice hbatch hchoice cell hcell

/-- A step keeps every batch to what its text can give exactly if it brings in nothing else. -/
theorem clean_step_iff {t : Tracked} (h : Sound t) (hclean : Clean t.state) (op : Op) :
    Clean (op.apply t.state) ↔ op.AsText t.state := by
  cases op with
  | addInsert =>
    refine iff_of_true ?_ trivial
    change ∀ p ∈ rowsOf (addInsert t.state), _
    rw [rowsOf_addInsert, List.forall_mem_append]
    refine ⟨hclean, fun p hp batch choice hbatch ↦ ?_⟩
    rw [List.mem_singleton.mp hp] at hbatch
    cases hbatch
  | addInserts rows pkMode emptyAsNull => exact clean_addInserts_iff h hclean rows pkMode emptyAsNull
  | setInsertCell insertIndex column value => exact clean_setInsertCell_iff h hclean insertIndex column value
  | removeInsert insertIndex =>
    refine iff_of_true (fun p hp ↦ hclean p ?_) trivial
    exact mem_rowsOf_of_keptAt (batchesOf_removeInsert t.state insertIndex) rfl hp
  | removeBatch batch =>
    refine iff_of_true (fun p hp ↦ hclean p ?_) trivial
    exact mem_rowsOf_of_keptAt (batchesOf_removeBatch t.state batch) rfl hp
  | setPkMode batch mode => exact iff_of_true hclean trivial
  | setBatchEmptyAsNull batch on => exact iff_of_true (clean_setBatchEmptyAsNull hclean batch on) trivial

theorem newBatch_lt_of_lt {ops : List Op} {i j : ℕ} (hij : i < j) (hj : j ≤ ops.length) {rows : List RowValues}
    {pkMode : PkMode} {emptyAsNull : Option Bool} (hpaste : ops[i]? = some (.addInserts rows pkMode emptyAsNull)) :
    newBatch (sessionAfter (ops.take i)).state < newBatch (sessionAfter (ops.take j)).state := by
  induction j, hij using Nat.le_induction with
  | base =>
    rw [List.take_add_one, hpaste, Option.toList_some, sessionAfter_concat]
    exact newBatch_addInserts_lt _ rows pkMode emptyAsNull
  | succ j hle ih =>
    have hop : ops[j]? = some ops[j] := List.getElem?_eq_getElem (by omega)
    rw [List.take_add_one, hop, Option.toList_some, sessionAfter_concat]
    exact (ih (by omega)).trans_le (newBatch_le_apply _ _)

/-- After any edits each insert has the batch it was added with, and no two pastes have one number; and every session
on the way switches back exactly if no edit brings in a cell that the text of its batch could not have given. -/
theorem sessionAfter_exact_iff (ops : List Op) :
    (∀ i ≤ ops.length, Batched (sessionAfter (ops.take i))) ∧
      (∀ i j, i < j → j < ops.length → (∃ rows pkMode choice, ops[i]? = some (.addInserts rows pkMode choice)) →
        newBatch (sessionAfter (ops.take i)).state ≠ newBatch (sessionAfter (ops.take j)).state) ∧
      ((∀ i ≤ ops.length, SwitchesBack (sessionAfter (ops.take i)).state) ↔
        ∀ i (hi : i < ops.length), ops[i].AsText (sessionAfter (ops.take i)).state) := by
  refine ⟨fun i _ ↦ ?_, fun i j hij hj ⟨rows, pkMode, choice, hpaste⟩ ↦ ?_, ?_⟩
  · exact batched_of_kept (sound_sessionAfter _).parallel (sound_sessionAfter _).kept
  · exact (newBatch_lt_of_lt hij hj.le hpaste).ne
  · have hstep (i : ℕ) (hi : i < ops.length) (hclean : Clean (sessionAfter (ops.take i)).state) :
        Clean (sessionAfter (ops.take (i + 1))).state ↔ ops[i].AsText (sessionAfter (ops.take i)).state := by
      rw [List.take_add_one, List.getElem?_eq_getElem hi, Option.toList_some, sessionAfter_concat]
      exact clean_step_iff (sound_sessionAfter _) hclean ops[i]
    simp only [switchesBack_iff]
    constructor
    · intro hclean i hi
      exact (hstep i hi (hclean i hi.le)).mp (hclean (i + 1) hi)
    · intro htext i hi
      induction i with
      | zero => exact nofun
      | succ i ih => exact (hstep i hi (ih (by omega))).mpr (htext i hi)

/-- A row pasted as text with an empty cell, to which the user then gives the empty string. -/
def typedEmpty : List Op := [.addInserts [[(['c'], none)]] .keep (some true), .setInsertCell 0 ['c'] (some [])]

/-- Switching the batch off and on turns the typed empty string into NULL. -/
theorem typedEmpty_not_switchesBack : ¬ SwitchesBack (sessionAfter typedEmpty).state := by
  intro h
  have hback := congrArg (fun s : PendingSession ↦ s.inserts) (h 0 true (by decide))
  exact absurd hback (by decide)

end Squaero.Front.PasteBatches
