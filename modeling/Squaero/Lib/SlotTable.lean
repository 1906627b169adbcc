import Mathlib.Data.List.ReduceOption

/-!
# Tables of slots

An array of slots, each free or holding an entry, searched from the front for the entry with a key.
The entries of the table are `reduceOption` of the array.
-/

namespace Squaero.Lib.SlotTable

variable {α κ : Type*} {table : List (Option α)} {i : ℕ} {entry : α}

/-- The slots but one, and what replacing that one does to the entries. -/
theorem reduceOption_set {y : Option α} (h : table[i]? = some y) :
    ∃ others, table.reduceOption.Perm (y.toList ++ others) ∧
      ∀ x : Option α, (table.set i x).reduceOption.Perm (x.toList ++ others) := by
  obtain ⟨hi, hy⟩ := List.getElem?_eq_some_iff.1 h
  have hentries (x : Option α) (before after : List (Option α)) :
      (before ++ x :: after).reduceOption =
        before.reduceOption ++ (x.toList ++ after.reduceOption) := by
    rw [List.reduceOption_append]
    cases x <;> rfl
  have htable : table = table.take i ++ y :: table.drop (i + 1) := by
    rw [← hy, ← List.drop_eq_getElem_cons hi, List.take_append_drop]
  refine ⟨(table.take i).reduceOption ++ (table.drop (i + 1)).reduceOption, ?_, fun x ↦ ?_⟩
  · rw [htable, hentries, ← htable]
    exact List.perm_append_comm_assoc _ _ _
  · rw [List.set_eq_take_append_cons_drop, if_pos hi, hentries]
    exact List.perm_append_comm_assoc _ _ _

/-- A free slot, the first one. -/
theorem free_of_idxOf? [DecidableEq α] (h : table.idxOf? none = some i) :
    table[i]? = some none := by
  obtain ⟨hi, hslot, -⟩ := List.findIdx?_eq_some_iff_getElem.1 h
  exact List.getElem?_eq_some_iff.2 ⟨hi, beq_iff_eq.1 hslot⟩

variable [DecidableEq κ] (key : α → κ)

/-- The first entry with the key, and where it is. -/
def find (k : κ) : List (Option α) → Option (ℕ × α)
  | [] => none
  | none :: rest => (find k rest).map fun r ↦ (r.1 + 1, r.2)
  | some entry :: rest =>
    if key entry = k then some (0, entry) else (find k rest).map fun r ↦ (r.1 + 1, r.2)

variable {key} {k : κ}

theorem find_eq_some (h : find key k table = some (i, entry)) :
    table[i]? = some (some entry) ∧ key entry = k := by
  induction table generalizing i with
  | nil => cases h
  | cons x table ih =>
    have hlater (hx : (find key k table).map (fun r ↦ (r.1 + 1, r.2)) = some (i, entry)) :
        (x :: table)[i]? = some (some entry) ∧ key entry = k := by
      obtain ⟨⟨j, found⟩, hfind, heq⟩ := Option.map_eq_some_iff.1 hx
      cases heq
      exact ih hfind
    cases x with
    | none => exact hlater h
    | some first =>
      rw [find] at h
      split_ifs at h with hkey
      · cases h
        exact ⟨rfl, hkey⟩
      · exact hlater h

/-- An entry of the table is found by its key. -/
theorem exists_find (h : entry ∈ table.reduceOption) : ∃ r, find key (key entry) table = some r := by
  induction table with
  | nil => cases h
  | cons x table ih =>
    cases x with
    | none =>
      obtain ⟨r, hr⟩ := ih h
      exact ⟨(r.1 + 1, r.2), by rw [find, hr, Option.map_some]⟩
    | some first =>
      rw [find]
      split_ifs with hkey
      · exact ⟨_, rfl⟩
      · rcases List.mem_cons.1 h with rfl | h
        · exact absurd rfl hkey
        · obtain ⟨r, hr⟩ := ih h
          exact ⟨(r.1 + 1, r.2), by rw [hr, Option.map_some]⟩

end Squaero.Lib.SlotTable
