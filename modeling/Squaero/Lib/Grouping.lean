import Mathlib.Data.List.Induction
import Mathlib.Data.List.Perm.Basic
import Mathlib.Data.List.Sort
import Squaero.Lib.Records

/-!
# Rows regrouped

Rows of several things are gathered under their keys, in the order in which a key is first seen, and each group is
sorted by a rank. Rows that are listed in any order come back thing by thing.
-/

namespace Squaero.Lib.Grouping

open Records

variable {κ α : Type} [DecidableEq κ] (key : α → κ)

/-- The row behind the others of its key. -/
def addRow (groups : List (κ × List α)) (r : α) : List (κ × List α) :=
  put (key r) ((groups.lookup (key r)).getD [] ++ [r]) groups

/-- The groups by their keys, a key where it is first seen. -/
def grouped (rows : List α) : List (κ × List α) := rows.foldl (addRow key) []

theorem grouped_concat (rows : List α) (r : α) :
    grouped key (rows ++ [r]) = addRow key (grouped key rows) r := by
  rw [grouped, List.foldl_append]
  rfl

theorem mem_keys_grouped (rows : List α) (k : κ) :
    k ∈ (grouped key rows).map Prod.fst ↔ ∃ r ∈ rows, key r = k := by
  induction rows using List.reverseRecOn with
  | nil => simp [grouped]
  | append_singleton rows r ih =>
    rw [grouped_concat, addRow, mem_keys_put, ih]
    simp only [List.mem_append, List.mem_singleton]
    constructor
    · rintro (rfl | ⟨s, hs, rfl⟩)
      · exact ⟨r, .inr rfl, rfl⟩
      · exact ⟨s, .inl hs, rfl⟩
    · rintro ⟨s, hs | rfl, rfl⟩
      · exact .inr ⟨s, hs, rfl⟩
      · exact .inl rfl

theorem nodup_grouped (rows : List α) : ((grouped key rows).map Prod.fst).Nodup := by
  induction rows using List.reverseRecOn with
  | nil => exact List.nodup_nil
  | append_singleton rows r ih =>
    rw [grouped_concat]
    exact nodup_put ih _ _

/-- A group has the rows of its key in their order. -/
theorem lookup_grouped (rows : List α) (k : κ) :
    ((grouped key rows).lookup k).getD [] = rows.filter fun r ↦ key r = k := by
  induction rows using List.reverseRecOn with
  | nil => rfl
  | append_singleton rows r ih =>
    rw [grouped_concat, addRow, List.filter_append]
    by_cases hk : key r = k
    · subst hk
      rw [lookup_put_self, Option.getD_some, ih, List.filter_singleton, decide_eq_true rfl, cond_true]
    · rw [lookup_put_of_ne (Ne.symm hk), ih, List.filter_singleton, decide_eq_false hk, cond_false, List.append_nil]

theorem mem_grouped {rows : List α} {g : κ × List α} (h : g ∈ grouped key rows) :
    g.2 = rows.filter fun r ↦ key r = g.1 := by
  have hlookup := (lookup_eq_some_iff (nodup_grouped key rows)).mpr h
  rw [← lookup_grouped, hlookup, Option.getD_some]

variable {ρ : Type} [LinearOrder ρ] (rank : α → ρ)

/-- The groups, each sorted by the ranks of its rows. -/
def groups (rows : List α) : List (List α) :=
  (grouped key rows).map fun g ↦ g.2.insertionSort fun a b ↦ rank a ≤ rank b

/-- Rows whose ranks grow are what any order of them is sorted to. -/
theorem insertionSort_eq {rows listed : List α} (hperm : rows.Perm listed)
    (hsorted : listed.Pairwise fun a b ↦ rank a < rank b) :
    (rows.insertionSort fun a b ↦ rank a ≤ rank b) = listed := by
  have htotal : Std.Total fun a b ↦ rank a ≤ rank b := ⟨fun a b ↦ le_total (rank a) (rank b)⟩
  have htrans : IsTrans α fun a b ↦ rank a ≤ rank b := ⟨fun _ _ _ hab hbc ↦ hab.trans hbc⟩
  refine List.Perm.eq_of_pairwise (fun a b ha hb hab hba ↦ ?_) (List.pairwise_insertionSort _ rows)
    (hsorted.imp le_of_lt) ((List.perm_insertionSort _ rows).trans hperm)
  have hranks : (listed.map rank).Nodup := List.pairwise_map.mpr (hsorted.imp ne_of_lt)
  have hmem : a ∈ listed := hperm.subset ((List.mem_insertionSort _).mp ha)
  exact List.inj_on_of_nodup_map hranks hmem hb (le_antisymm hab hba)

theorem put_last {groups : List (κ × List α)} {k : κ} (h : k ∉ groups.map Prod.fst) (old new : List α) :
    put k new (groups ++ [(k, old)]) = groups ++ [(k, new)] := by
  induction groups with
  | nil => exact if_pos rfl
  | cons g groups ih =>
    rw [List.map_cons, List.mem_cons, not_or] at h
    rw [List.cons_append, put, if_neg (Ne.symm h.1), ih h.2, List.cons_append]

/-- Rows of a key of their own behind all others are the last group. -/
theorem groups_append {rows last : List α} {k : κ} (hne : last ≠ []) (hlast : ∀ r ∈ last, key r = k)
    (hrows : ∀ r ∈ rows, key r ≠ k) :
    groups key rank (rows ++ last) = groups key rank rows ++ [last.insertionSort fun a b ↦ rank a ≤ rank b] := by
  have hgrouped : grouped key (rows ++ last) = grouped key rows ++ [(k, last)] := by
    induction last using List.reverseRecOn with
    | nil => exact absurd rfl hne
    | append_singleton last r ih =>
      have hr : key r = k := hlast r (List.mem_append_right _ (List.mem_singleton_self r))
      have hnew : k ∉ (grouped key rows).map Prod.fst := by
        rw [mem_keys_grouped]
        rintro ⟨s, hs, hsk⟩
        exact hrows s hs hsk
      rw [← List.append_assoc, grouped_concat, addRow, hr]
      cases last with
      | nil =>
        rw [List.append_nil, lookup_eq_none_iff.mpr hnew, Option.getD_none, put_of_not_mem hnew]
      | cons s last =>
        have hstart := ih (List.cons_ne_nil s last) fun t ht ↦ hlast t (List.mem_append_left [r] ht)
        have hlookup : (grouped key rows ++ [(k, s :: last)]).lookup k = some (s :: last) := by
          rw [List.lookup_append, lookup_eq_none_iff.mpr hnew, Option.none_or, List.lookup_cons_self]
        rw [hstart, hlookup, Option.getD_some, put_last hnew]
  unfold groups
  rw [hgrouped, List.map_append]
  rfl

/-- The rows of one thing among those of all. -/
theorem filter_flatMap_eq {ι : Type} {things : List ι} {rowsOf : ι → List α} {keyOf : ι → κ}
    (hkeys : (things.map keyOf).Nodup) (hkey : ∀ t ∈ things, ∀ r ∈ rowsOf t, key r = keyOf t) {t : ι} (ht : t ∈ things) :
    ((things.flatMap rowsOf).filter fun r ↦ key r = keyOf t) = rowsOf t := by
  induction things with
  | nil => cases ht
  | cons s things ih =>
    rw [List.map_cons, List.nodup_cons] at hkeys
    have hrest := fun u hu ↦ hkey u (List.mem_cons_of_mem s hu)
    rw [List.flatMap_cons, List.filter_append]
    obtain rfl | htail := List.mem_cons.mp ht
    · have hown : (rowsOf t).filter (fun r ↦ key r = keyOf t) = rowsOf t :=
        List.filter_eq_self.mpr fun r hr ↦ decide_eq_true (hkey t ht r hr)
      have hothers : ((things.flatMap rowsOf).filter fun r ↦ key r = keyOf t) = [] := by
        rw [List.filter_eq_nil_iff]
        intro r hr hsame
        obtain ⟨u, hu, hru⟩ := List.mem_flatMap.mp hr
        exact hkeys.1 (List.mem_map.mpr ⟨u, hu, (hrest u hu r hru).symm.trans (of_decide_eq_true hsame)⟩)
      rw [hown, hothers, List.append_nil]
    · have hother : (rowsOf s).filter (fun r ↦ key r = keyOf t) = [] := by
        rw [List.filter_eq_nil_iff]
        intro r hr hsame
        have hst := (hkey s List.mem_cons_self r hr).symm.trans (of_decide_eq_true hsame)
        exact hkeys.1 (hst ▸ List.mem_map_of_mem htail)
      rw [hother, List.nil_append, ih hkeys.2 hrest htail]

/-- The groups are the things, in some order, when each has rows of its own key with growing ranks. -/
theorem groups_eq {ι : Type} {things : List ι} {rowsOf : ι → List α} {keyOf : ι → κ}
    (hkeys : (things.map keyOf).Nodup) (hne : ∀ t ∈ things, rowsOf t ≠ [])
    (hkey : ∀ t ∈ things, ∀ r ∈ rowsOf t, key r = keyOf t)
    (hsorted : ∀ t ∈ things, (rowsOf t).Pairwise fun a b ↦ rank a < rank b) {rows : List α}
    (hperm : rows.Perm (things.flatMap rowsOf)) :
    ∃ order : List ι, order.Perm things ∧ groups key rank rows = order.map rowsOf := by
  have hmem (k : κ) : k ∈ (grouped key rows).map Prod.fst ↔ k ∈ things.map keyOf := by
    rw [mem_keys_grouped, List.mem_map]
    constructor
    · rintro ⟨r, hr, rfl⟩
      obtain ⟨t, ht, hrt⟩ := List.mem_flatMap.mp (hperm.subset hr)
      exact ⟨t, ht, (hkey t ht r hrt).symm⟩
    · rintro ⟨t, ht, rfl⟩
      obtain ⟨r, rest, hrows⟩ := List.exists_cons_of_ne_nil (hne t ht)
      have hr : r ∈ rowsOf t := hrows ▸ List.mem_cons_self
      exact ⟨r, hperm.symm.subset (List.mem_flatMap.mpr ⟨t, ht, hr⟩), hkey t ht r hr⟩
  have hsame : ((grouped key rows).map Prod.fst).Perm (things.map keyOf) :=
    (List.perm_ext_iff_of_nodup (nodup_grouped key rows) hkeys).mpr hmem
  obtain ⟨order, hmap, horder⟩ := (congrFun₂ (List.eq_map_comp_perm keyOf) _ things).mpr hsame
  refine ⟨order, horder, ?_⟩
  have hfilter {t : ι} (ht : t ∈ things) : (rows.filter fun r ↦ key r = keyOf t).Perm (rowsOf t) :=
    (hperm.filter _).trans (List.Perm.of_eq (filter_flatMap_eq key hkeys hkey ht))
  calc groups key rank rows
    _ = ((grouped key rows).map Prod.fst).map fun k ↦
        (rows.filter fun r ↦ key r = k).insertionSort fun a b ↦ rank a ≤ rank b := by
      rw [List.map_map]
      refine List.map_congr_left fun g hg ↦ ?_
      rw [mem_grouped key hg]
      rfl
    _ = order.map rowsOf := by
      rw [hmap, List.map_map]
      refine List.map_congr_left fun t ht ↦ ?_
      have hthing := horder.subset ht
      exact insertionSort_eq rank (hfilter hthing) (hsorted t hthing)

/-! ## Things put into places -/

/-- What is at a place after steps that each change one place: the changes of its own steps, in their order. -/
theorem getElem?_foldl_modify {σ ι : Type} (place : ι → Option ℕ) (change : ι → σ → σ) (steps : List ι)
    (states : List σ) (j : ℕ) :
    (steps.foldl (fun states i ↦
      match place i with
      | none => states
      | some p => states.modify p (change i)) states)[j]? =
      (states[j]?).map fun s ↦ (steps.filter fun i ↦ place i = some j).foldl (fun s i ↦ change i s) s := by
  induction steps generalizing states with
  | nil => simp
  | cons i steps ih =>
    rw [List.foldl_cons, ih]
    cases hplace : place i with
    | none => rw [List.filter_cons_of_neg (by simp [hplace])]
    | some p =>
      dsimp only
      rw [List.getElem?_modify, Option.map_eq_map, Option.map_map]
      by_cases hp : p = j
      · subst hp
        have hfilter : (i :: steps).filter (fun i ↦ place i = some p) = i :: steps.filter fun i ↦ place i = some p :=
          List.filter_cons_of_pos (decide_eq_true hplace)
        rw [hfilter]
        exact congrArg (Option.map · _) (funext fun s ↦ by rw [Function.comp_apply, if_pos rfl, List.foldl_cons])
      · have hne : place i ≠ some j := fun h ↦ hp (Option.some.inj (hplace.symm.trans h))
        have hfilter : (i :: steps).filter (fun i ↦ place i = some j) = steps.filter fun i ↦ place i = some j :=
          List.filter_cons_of_neg (by simpa using hne)
        rw [hfilter]
        exact congrArg (Option.map · _) (funext fun s ↦ by rw [Function.comp_apply, if_neg hp])

/-- Among different things only one has a share. -/
theorem flatMap_eq_of_only {ι β : Type} {things : List ι} (hnodup : things.Nodup) {f : ι → List β} {t : ι} (ht : t ∈ things)
    (honly : ∀ s ∈ things, s ≠ t → f s = []) : things.flatMap f = f t := by
  induction things with
  | nil => cases ht
  | cons s things ih =>
    rw [List.nodup_cons] at hnodup
    rw [List.flatMap_cons]
    obtain rfl | htail := List.mem_cons.mp ht
    · have hothers : things.flatMap f = [] := by
        rw [List.flatMap_eq_nil_iff]
        exact fun u hu ↦ honly u (List.mem_cons_of_mem t hu) fun h ↦ hnodup.1 (h ▸ hu)
      rw [hothers, List.append_nil]
    · rw [honly s List.mem_cons_self fun h ↦ hnodup.1 (h ▸ htail), List.nil_append]
      exact ih hnodup.2 htail fun u hu ↦ honly u (List.mem_cons_of_mem s hu)

end Squaero.Lib.Grouping
