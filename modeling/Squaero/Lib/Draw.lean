import Mathlib.Algebra.GroupWithZero.Nat
import Mathlib.Data.List.ReduceOption

/-!
# Drawing from a list

A reader draws from a list, a number of items each time. A draw that comes out full may have more
behind it; one that does not is the last, and every draw behind it is empty-handed.
-/

namespace Squaero.Lib

universe u

variable {α : Type u}

/-- What each draw gives from what is left: the items and whether there may be more; none once the
last draw was made. -/
def draw : Option (List α) → List ℕ → List (Option (List α × Bool))
  | _, [] => []
  | none, _ :: counts => none :: draw none counts
  | some xs, count :: counts =>
    if count ≤ xs.length then some (xs.take count, true) :: draw (some (xs.drop count)) counts
    else some (xs, false) :: draw none counts

attribute [local grind =] draw

/-- All that was drawn, in order. -/
def drawn (draws : List (Option (List α × Bool))) : List α :=
  (draws.reduceOption.map Prod.fst).flatten

variable {xs page : List α} {counts : List ℕ} {more : Bool}

@[simp]
theorem drawn_cons_some (d : List α × Bool) (draws : List (Option (List α × Bool))) :
    drawn (some d :: draws) = d.1 ++ drawn draws := by
  rw [drawn, List.reduceOption_cons_of_some, List.map_cons, List.flatten_cons, drawn]

@[simp]
theorem drawn_draw_none (counts : List ℕ) : drawn (draw (none : Option (List α)) counts) = [] := by
  induction counts with
  | nil => rfl
  | cons count counts ih =>
    rw [draw, drawn, List.reduceOption_cons_of_none]
    exact ih

theorem not_mem_draw_none (d : List α × Bool) (counts : List ℕ) : some d ∉ draw none counts := by
  induction counts with
  | nil => simp [draw]
  | cons count counts ih => simpa [draw] using ih

theorem drawn_draw_prefix (xs : List α) (counts : List ℕ) :
    drawn (draw (some xs) counts) <+: xs := by
  induction counts generalizing xs with
  | nil => exact List.nil_prefix
  | cons count counts ih =>
    rw [draw]
    split
    next hfull =>
      have hrest := (List.prefix_append_right_inj (xs.take count)).2 (ih (xs.drop count))
      rwa [List.take_append_drop, ← drawn_cons_some (xs.take count, true)] at hrest
    next hlast =>
      have hdrawn : drawn (some (xs, false) :: draw none counts) = xs := by
        rw [drawn_cons_some, drawn_draw_none, List.append_nil]
      exact hdrawn.symm ▸ List.prefix_refl xs

/-- Behind the last draw nothing is left. -/
theorem drawn_draw_eq (hlast : some (page, false) ∈ draw (some xs) counts) :
    drawn (draw (some xs) counts) = xs := by
  induction counts generalizing xs with
  | nil => simp [draw] at hlast
  | cons count counts ih =>
    rw [draw] at hlast ⊢
    split at hlast
    next hfull =>
      rw [if_pos hfull, drawn_cons_some]
      rcases List.mem_cons.1 hlast with heq | hlast
      · cases heq
      · rw [ih hlast, List.take_append_drop]
    next hend => rw [if_neg hend, drawn_cons_some, drawn_draw_none, List.append_nil]

theorem length_le_of_mem_draw (hpage : some (page, more) ∈ draw (some xs) counts) :
    page.length ≤ xs.length := by
  induction counts generalizing xs with
  | nil => simp [draw] at hpage
  | cons count counts ih =>
    rw [draw] at hpage
    split at hpage
    next hfull =>
      rcases List.mem_cons.1 hpage with heq | hpage
      · cases heq
        exact (List.take_sublist _ _).length_le
      · exact Nat.le_trans (ih hpage) (List.drop_sublist _ _).length_le
    next hend =>
      rcases List.mem_cons.1 hpage with heq | hpage
      · cases heq
        exact Nat.le_refl _
      · exact absurd hpage (not_mem_draw_none _ _)

/-- Who asks for more than there is comes to the last draw. -/
theorem exists_last_draw (hsum : xs.length < counts.sum) :
    ∃ page, some (page, false) ∈ draw (some xs) counts := by
  induction counts generalizing xs with
  | nil => simp at hsum
  | cons count counts ih =>
    rw [draw]
    rw [List.sum_cons] at hsum
    split
    next hfull =>
      have hrest : (xs.drop count).length < counts.sum := by
        rw [List.length_drop]
        omega
      obtain ⟨page, hpage⟩ := ih hrest
      exact ⟨page, .tail _ hpage⟩
    next hend => exact ⟨xs, .head _⟩

/-- A draw has as many items as it asks for, or all that are left. -/
theorem length_of_draw {i count : ℕ} (hcount : counts[i]? = some count)
    (hdraw : (draw (some xs) counts)[i]? = some (some (page, more))) :
    page.length = min count (xs.length - (counts.take i).sum) ∧
      (more = true ↔ count ≤ xs.length - (counts.take i).sum) := by
  induction counts generalizing xs i with
  | nil => cases hcount
  | cons c counts ih =>
    rw [draw] at hdraw
    split at hdraw
    next hfull =>
      cases i with
      | zero =>
        cases hcount
        cases hdraw
        rw [List.length_take, List.take_zero, List.sum_nil, Nat.sub_zero]
        exact ⟨rfl, iff_of_true rfl hfull⟩
      | succ i =>
        have hrest := ih hcount hdraw
        rw [List.length_drop, Nat.sub_sub] at hrest
        rwa [List.take_succ_cons, List.sum_cons]
    next hend =>
      cases i with
      | zero =>
        cases hcount
        cases hdraw
        rw [List.take_zero, List.sum_nil, Nat.sub_zero, Nat.min_eq_right (by omega)]
        exact ⟨rfl, iff_of_false Bool.false_ne_true hend⟩
      | succ i =>
        rw [List.getElem?_cons_succ] at hdraw
        exact absurd (List.mem_of_getElem? hdraw) (not_mem_draw_none _ _)

end Squaero.Lib
