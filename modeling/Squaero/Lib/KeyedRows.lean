import Mathlib.Data.List.Nodup
import Mathlib.Data.List.Range
import Mathlib.Logic.Function.Basic

/-!
# Rows with a unique key

Statements against rows that may not repeat a key: an update and a delete that are to match exactly one
row, and an insert. The rows are followed as the values of a function on indices, so that an update is
`Function.update` and a delete takes an index away.
-/

namespace Squaero.Lib.KeyedRows

variable {ι α κ : Type*} [DecidableEq κ] (key : α → κ)

/-- The rows behind an update: none if it matches other than one row, or repeats a key. -/
def update (p : α → Bool) (change : α → α) (rows : List α) : Option (List α) :=
  let changed := rows.map fun row ↦ if p row then change row else row
  if rows.countP p = 1 ∧ (changed.map key).Nodup then some changed else none

/-- The rows behind a delete: none if it matches other than one row. -/
def delete (p : α → Bool) (rows : List α) : Option (List α) :=
  if rows.countP p = 1 then some (rows.filter fun row ↦ !p row) else none

/-- The rows behind an insert: none if it repeats a key. -/
def insert (row : α) (rows : List α) : Option (List α) :=
  if ((rows ++ [row]).map key).Nodup then some (rows ++ [row]) else none

theorem insert_of_nodup {row : α} {rows : List α} (h : ((rows ++ [row]).map key).Nodup) :
    insert key row rows = some (rows ++ [row]) := if_pos h

variable [DecidableEq ι] {is : List ι} {f : ι → α} {p : α → Bool} {i : ι}

/-- Exactly the row of one index matches. -/
theorem countP_map_eq_one_iff (his : is.Nodup) (hi : i ∈ is) (hp : p (f i) = true) :
    (is.map f).countP p = 1 ↔ ∀ j ∈ is, j ≠ i → p (f j) = false := by
  have hsplit : (is.map f).countP p = 1 + ((is.erase i).map f).countP p := by
    rw [((List.perm_cons_erase hi).map f).countP_eq p, List.map_cons, List.countP_cons_of_pos hp,
      Nat.add_comm]
  calc
    _ ↔ ((is.erase i).map f).countP p = 0 := by rw [hsplit]; omega
    _ ↔ ∀ j ∈ is.erase i, p (f j) = false := by simp [List.countP_eq_zero]
    _ ↔ _ := by
      simp only [his.mem_erase_iff]
      exact ⟨fun h j hj hne ↦ h j ⟨hne, hj⟩, fun h j hj ↦ h j hj.2 hj.1⟩

theorem update_map_iff (his : is.Nodup) (hi : i ∈ is) (hp : p (f i) = true) (change : α → α)
    (rows : List α) :
    update key p change (is.map f) = some rows ↔
      (∀ j ∈ is, j ≠ i → p (f j) = false) ∧
        ((is.map (Function.update f i (change (f i)))).map key).Nodup ∧
        is.map (Function.update f i (change (f i))) = rows := by
  have hchanged (hothers : ∀ j ∈ is, j ≠ i → p (f j) = false) :
      (is.map f).map (fun row ↦ if p row then change row else row) =
        is.map (Function.update f i (change (f i))) := by
    rw [List.map_map]
    apply List.map_congr_left
    intro j hj
    by_cases h : j = i
    · subst h
      simp [hp]
    · simp [hothers j hj h, h]
  unfold update
  simp only [countP_map_eq_one_iff his hi hp]
  by_cases hothers : ∀ j ∈ is, j ≠ i → p (f j) = false
  · rw [hchanged hothers]
    simp only [Option.ite_none_right_eq_some, Option.some.injEq, and_assoc]
  · simp [hothers]

theorem delete_map_iff (his : is.Nodup) (hp : ∀ j ∈ is, p (f j) = true ↔ j = i) (rows : List α) :
    delete p (is.map f) = some rows ↔ i ∈ is ∧ (is.filter (· ≠ i)).map f = rows := by
  have hfilter : (is.map f).filter (fun row ↦ !p row) = (is.filter (· ≠ i)).map f := by
    rw [List.filter_map]
    congr 1
    apply List.filter_congr
    intro j hj
    by_cases h : j = i
    · subst h
      simp [(hp j hj).mpr rfl]
    · simp [mt (hp j hj).mp h, h]
  have hcount : (is.map f).countP p = 1 ↔ i ∈ is := by
    constructor
    · intro h
      have hpos : 0 < (is.map f).countP p := by omega
      obtain ⟨row, hrow, hprow⟩ := List.countP_pos_iff.mp hpos
      obtain ⟨j, hj, rfl⟩ := List.mem_map.mp hrow
      exact (hp j hj).mp hprow ▸ hj
    · intro hi
      refine (countP_map_eq_one_iff his hi ((hp i hi).mpr rfl)).mpr fun j hj hne ↦ ?_
      exact Bool.eq_false_iff.mpr fun h ↦ hne ((hp j hj).mp h)
  unfold delete
  rw [hfilter]
  simp only [hcount, Option.ite_none_right_eq_some, Option.some.injEq]

/-! ## Statements that name the key of their row -/

variable {key} {rows : List α} {k : κ} {change : α → α}

theorem countP_eq_one_of_key (hnodup : (rows.map key).Nodup) (hk : k ∈ rows.map key)
    (hp : ∀ row ∈ rows, p row = true ↔ key row = k) : rows.countP p = 1 := by
  obtain ⟨row, hrow, rfl⟩ := List.mem_map.mp hk
  have hcount : rows.countP p = (rows.map key).count (key row) := by
    rw [List.count, List.countP_map]
    exact List.countP_congr fun other hother ↦ by simp [hp other hother]
  rw [hcount]
  exact List.count_eq_one_of_mem hnodup hk

theorem update_of_key (hnodup : (rows.map key).Nodup) (hk : k ∈ rows.map key)
    (hp : ∀ row ∈ rows, p row = true ↔ key row = k) (hchange : ∀ row ∈ rows, key (change row) = key row) :
    update key p change rows = some (rows.map fun row ↦ if key row = k then change row else row) := by
  have hmap : (rows.map fun row ↦ if p row then change row else row) =
      rows.map fun row ↦ if key row = k then change row else row :=
    List.map_congr_left fun row hrow ↦ if_congr (hp row hrow) rfl rfl
  have hkeys : (rows.map fun row ↦ if key row = k then change row else row).map key = rows.map key := by
    rw [List.map_map]
    refine List.map_congr_left fun row hrow ↦ ?_
    rw [Function.comp_apply]
    split_ifs
    · exact hchange row hrow
    · rfl
  unfold update
  simp only [hmap]
  exact if_pos ⟨countP_eq_one_of_key hnodup hk hp, hkeys ▸ hnodup⟩

theorem delete_of_key (hnodup : (rows.map key).Nodup) (hk : k ∈ rows.map key)
    (hp : ∀ row ∈ rows, p row = true ↔ key row = k) : delete p rows = some (rows.filter fun row ↦ key row ≠ k) := by
  unfold delete
  rw [if_pos (countP_eq_one_of_key hnodup hk hp)]
  refine congrArg some (List.filter_congr fun row hrow ↦ ?_)
  by_cases hkey : key row = k
  · simp [hkey, (hp row hrow).mpr hkey]
  · simp [hkey, mt (hp row hrow).mp hkey]

/-- Updates of different rows, one after the other: each row is changed by the one that names its key. -/
theorem updates_of_keys {σ : Type*} {named : σ → κ} {p : σ → α → Bool} {change : σ → α → α} (items : List σ)
    (hnodup : (rows.map key).Nodup) (hitems : (items.map named).Nodup) (hmem : ∀ j ∈ items, named j ∈ rows.map key)
    (hp : ∀ j ∈ items, ∀ row, p j row = true ↔ key row = named j)
    (hchange : ∀ j ∈ items, ∀ row, key (change j row) = key row) :
    items.foldlM (fun rows j ↦ update key (p j) (change j) rows) rows =
      some (rows.map fun row ↦ (items.find? fun j ↦ key row = named j).elim row fun j ↦ change j row) := by
  induction items generalizing rows with
  | nil => simp
  | cons j items ih =>
    rw [List.map_cons, List.nodup_cons] at hitems
    have hstep := update_of_key hnodup (hmem j List.mem_cons_self) (fun row _ ↦ hp j List.mem_cons_self row)
      fun row _ ↦ hchange j List.mem_cons_self row
    have hkeys : (rows.map fun row ↦ if key row = named j then change j row else row).map key = rows.map key := by
      rw [List.map_map]
      refine List.map_congr_left fun row _ ↦ ?_
      rw [Function.comp_apply]
      split_ifs
      · exact hchange j List.mem_cons_self row
      · rfl
    rw [List.foldlM_cons, hstep, Option.bind_eq_bind, Option.bind_some,
      ih (hkeys ▸ hnodup) hitems.2 (fun i hi ↦ hkeys ▸ hmem i (List.mem_cons_of_mem j hi))
        (fun i hi ↦ hp i (List.mem_cons_of_mem j hi)) (fun i hi ↦ hchange i (List.mem_cons_of_mem j hi)),
      List.map_map]
    refine congrArg some (List.map_congr_left fun row _ ↦ ?_)
    rw [Function.comp_apply]
    by_cases hkey : key row = named j
    · have hnone : items.find? (fun i ↦ key row = named i) = none := by
        refine List.find?_eq_none.mpr fun i hi ↦ ?_
        simp only [decide_eq_true_eq]
        exact fun heq ↦ hitems.1 (hkey ▸ heq ▸ List.mem_map_of_mem hi)
      rw [if_pos hkey, hchange j List.mem_cons_self, hnone, List.find?_cons_of_pos (by simp [hkey])]
      rfl
    · rw [if_neg hkey, List.find?_cons_of_neg (by simp [hkey])]

theorem deletes_of_named {σ : Type*} {named : σ → κ} {p : σ → α → Bool} (items : List σ) (hnodup : (rows.map key).Nodup)
    (hitems : (items.map named).Nodup) (hmem : ∀ j ∈ items, named j ∈ rows.map key)
    (hp : ∀ j ∈ items, ∀ row, p j row = true ↔ key row = named j) :
    items.foldlM (fun rows j ↦ delete (p j) rows) rows = some (rows.filter fun row ↦ key row ∉ items.map named) := by
  induction items generalizing rows with
  | nil => simp
  | cons j items ih =>
    rw [List.map_cons, List.nodup_cons] at hitems
    have hstep := delete_of_key hnodup (hmem j List.mem_cons_self) fun row _ ↦ hp j List.mem_cons_self row
    have hstill : ∀ i ∈ items, named i ∈ (rows.filter fun row ↦ key row ≠ named j).map key := by
      intro i hi
      obtain ⟨row, hrow, hkey⟩ := List.mem_map.mp (hmem i (List.mem_cons_of_mem j hi))
      refine List.mem_map.mpr ⟨row, List.mem_filter.mpr ⟨hrow, ?_⟩, hkey⟩
      rw [decide_eq_true_eq, hkey]
      exact fun heq ↦ hitems.1 (heq ▸ List.mem_map_of_mem hi)
    rw [List.foldlM_cons, hstep, Option.bind_eq_bind, Option.bind_some,
      ih (hnodup.sublist (List.filter_sublist.map key)) hitems.2 hstill fun i hi ↦ hp i (List.mem_cons_of_mem j hi),
      List.filter_filter]
    refine congrArg some (List.filter_congr fun row _ ↦ ?_)
    rw [Bool.eq_iff_iff]
    simp only [Bool.and_eq_true, decide_eq_true_eq, List.map_cons, List.mem_cons, not_or]
    exact and_comm

/-- Deletes of different rows, one after the other: the rows whose key none of them names are left. -/
theorem deletes_of_keys {σ : Type*} {named : σ → κ} {p : σ → α → Bool} {keep : α → Bool} (items : List σ)
    (hnodup : (rows.map key).Nodup) (hitems : (items.map named).Nodup) (hmem : ∀ j ∈ items, named j ∈ rows.map key)
    (hp : ∀ j ∈ items, ∀ row, p j row = true ↔ key row = named j)
    (hkeep : ∀ row ∈ rows, keep row = true ↔ key row ∉ items.map named) :
    items.foldlM (fun rows j ↦ delete (p j) rows) rows = some (rows.filter keep) := by
  rw [deletes_of_named items hnodup hitems hmem hp]
  refine congrArg some (List.filter_congr fun row hrow ↦ ?_)
  rw [Bool.eq_iff_iff, decide_eq_true_eq, hkeep row hrow]

end Squaero.Lib.KeyedRows
