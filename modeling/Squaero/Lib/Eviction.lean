import Mathlib.Algebra.BigOperators.Group.List.Basic
import Mathlib.Algebra.GroupWithZero.Nat
import Mathlib.Data.List.Sort
import Mathlib.Tactic.Common

/-!
# Dropping items until the rest fits

Items with sizes are dropped from the front of a list, one at a time and only while the total is over a limit.
-/

namespace Squaero.Lib.Eviction

variable {α : Type} (size : α → ℕ) (cap : ℕ)

/-- The items that are dropped, of items that are part of a total. -/
def evicted : ℕ → List α → List α
  | _, [] => []
  | total, item :: items => if total ≤ cap then [] else item :: evicted (total - size item) items

attribute [local grind =] evicted

theorem evicted_prefix (total : ℕ) (items : List α) : evicted size cap total items <+: items := by
  induction items generalizing total with
  | nil => exact List.nil_prefix
  | cons item items ih =>
    rw [evicted]
    split_ifs
    · exact List.nil_prefix
    · exact (List.prefix_cons_inj item).mpr (ih _)

/-- An item is dropped exactly if the total was still over the limit when those before it had gone. -/
theorem lt_length_evicted_iff {total : ℕ} {items : List α} {i : ℕ} :
    i < (evicted size cap total items).length ↔
      i < items.length ∧ cap < total - ((items.take i).map size).sum := by
  induction items generalizing total i with
  | nil => simp [evicted]
  | cons item items ih =>
    rw [evicted]
    split_ifs with hfits
    · simp only [List.length_nil, Nat.not_lt_zero, false_iff, not_and]
      omega
    · cases i with
      | zero => simpa using hfits
      | succ i =>
        rw [List.length_cons, List.length_cons, List.take_succ_cons, List.map_cons, List.sum_cons]
        rw [Nat.succ_lt_succ_iff, ih, Nat.succ_lt_succ_iff, Nat.sub_sub]

theorem evicted_of_fits {total : ℕ} (h : total ≤ cap) (items : List α) : evicted size cap total items = [] := by
  cases items with
  | nil => rfl
  | cons item items => exact if_pos h

/-- What is left fits, if dropping everything would do. -/
theorem evicted_fits {total : ℕ} {items : List α} (h : total - (items.map size).sum ≤ cap) :
    total - ((evicted size cap total items).map size).sum ≤ cap := by
  induction items generalizing total with
  | nil => exact h
  | cons item items ih =>
    rw [evicted]
    split_ifs with hfits
    · simpa using hfits
    · rw [List.map_cons, List.sum_cons, ← Nat.sub_sub]
      apply ih
      rwa [List.map_cons, List.sum_cons, ← Nat.sub_sub] at h

/-- Every item was dropped when the total was over the limit. -/
theorem evicted_needed {total : ℕ} {items before after : List α} {item : α}
    (h : evicted size cap total items = before ++ item :: after) : cap < total - (before.map size).sum := by
  have hlt : before.length < (evicted size cap total items).length := by
    rw [h, List.length_append, List.length_cons]
    omega
  obtain ⟨rest, hrest⟩ := evicted_prefix size cap total items
  have htake : items.take before.length = before := by
    rw [← hrest, h]
    simp
  have hneeded := ((lt_length_evicted_iff size cap).mp hlt).2
  rwa [htake] at hneeded

/-- What is dropped of a sorted list comes before what is kept. -/
theorem evicted_le {r : α → α → Prop} {total : ℕ} {items kept : List α} (hsorted : items.Pairwise r)
    (hsplit : items = evicted size cap total items ++ kept) {a b : α} (ha : a ∈ evicted size cap total items)
    (hb : b ∈ kept) : r a b := by
  rw [hsplit] at hsorted
  exact (List.pairwise_append.mp hsorted).2.2 a ha b hb

/-- Of items with keys, those that are kept are known by their keys. -/
theorem evicted_split {κ : Type} (keyOf : α → κ) {total : ℕ} {items : List α} (hnodup : (items.map keyOf).Nodup) :
    ∃ kept, items = evicted size cap total items ++ kept ∧
      ∀ item ∈ items, keyOf item ∉ (evicted size cap total items).map keyOf ↔ item ∈ kept := by
  obtain ⟨kept, hkept⟩ := evicted_prefix size cap total items
  have hapart : ((evicted size cap total items ++ kept).map keyOf).Nodup := hkept.symm ▸ hnodup
  rw [List.map_append, List.nodup_append] at hapart
  refine ⟨kept, hkept.symm, fun item hitem ↦ ⟨fun hnot ↦ ?_, fun hmem hgone ↦ ?_⟩⟩
  · rw [← hkept] at hitem
    exact (List.mem_append.mp hitem).resolve_left fun hevicted ↦ hnot (List.mem_map_of_mem hevicted)
  · exact hapart.2.2 _ hgone _ (List.mem_map_of_mem hmem) rfl

end Squaero.Lib.Eviction
