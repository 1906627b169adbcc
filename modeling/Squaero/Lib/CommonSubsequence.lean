import Mathlib.Data.List.Infix
import Mathlib.Order.MinMax

/-!
# Longest common subsequences

`lcsLength` is the recursion by which tables of them are filled. What two lists have in common at their beginning
or their end belongs to a longest one, and without loss.
-/

namespace Squaero.Lib

variable {α : Type*}

/-- No common subsequence of `a` and `b` is longer than `s`. -/
structure IsLongest (a b s : List α) : Prop where
  left : s.Sublist a
  right : s.Sublist b
  longest : ∀ t : List α, t.Sublist a → t.Sublist b → t.length ≤ s.length

theorem tail_sublist_of_sublist_cons {x : α} {t a : List α} (h : t.Sublist (x :: a)) : t.tail.Sublist a := by
  obtain hskip | ⟨t, rfl, htail⟩ := List.sublist_cons_iff.mp h
  · exact (List.tail_sublist t).trans hskip
  · exact htail

theorem IsLongest.cons {a b s : List α} (h : IsLongest a b s) (x : α) : IsLongest (x :: a) (x :: b) (x :: s) where
  left := h.left.cons_cons x
  right := h.right.cons_cons x
  longest t hleft hright := by
    have htail := h.longest t.tail (tail_sublist_of_sublist_cons hleft) (tail_sublist_of_sublist_cons hright)
    rw [List.length_tail] at htail
    rw [List.length_cons]
    omega

theorem IsLongest.append_left {a b s : List α} (h : IsLongest a b s) (head : List α) :
    IsLongest (head ++ a) (head ++ b) (head ++ s) := by
  induction head with
  | nil => exact h
  | cons x head ih => exact ih.cons x

theorem IsLongest.reverse {a b s : List α} (h : IsLongest a b s) : IsLongest a.reverse b.reverse s.reverse where
  left := h.left.reverse
  right := h.right.reverse
  longest t hleft hright := by
    have hback := h.longest t.reverse (by simpa using hleft.reverse) (by simpa using hright.reverse)
    rwa [List.length_reverse] at hback ⊢

theorem IsLongest.append_right {a b s : List α} (h : IsLongest a b s) (tail : List α) :
    IsLongest (a ++ tail) (b ++ tail) (s ++ tail) := by
  have hreversed := (h.reverse.append_left tail.reverse).reverse
  simpa using hreversed

variable [DecidableEq α]

def lcsLength : List α → List α → ℕ
  | [], _ => 0
  | _ :: _, [] => 0
  | x :: a, y :: b => if x = y then lcsLength a b + 1 else max (lcsLength a (y :: b)) (lcsLength (x :: a) b)
  termination_by a b => a.length + b.length

@[simp]
theorem lcsLength_nil_left (b : List α) : lcsLength [] b = 0 := by
  rw [lcsLength]

@[simp]
theorem lcsLength_nil_right (a : List α) : lcsLength a [] = 0 := by
  cases a with
  | nil => rw [lcsLength]
  | cons x a => rw [lcsLength]

theorem lcsLength_cons_cons (x y : α) (a b : List α) : lcsLength (x :: a) (y :: b) =
    if x = y then lcsLength a b + 1 else max (lcsLength a (y :: b)) (lcsLength (x :: a) b) := by
  rw [lcsLength]

theorem lcsLength_cons_same (x : α) (a b : List α) : lcsLength (x :: a) (x :: b) = lcsLength a b + 1 := by
  rw [lcsLength_cons_cons, if_pos rfl]

theorem lcsLength_cons_ne {x y : α} (h : x ≠ y) (a b : List α) :
    lcsLength (x :: a) (y :: b) = max (lcsLength a (y :: b)) (lcsLength (x :: a) b) := by
  rw [lcsLength_cons_cons, if_neg h]

/-- No common subsequence is longer. -/
theorem length_le_lcsLength {a b t : List α} (hleft : t.Sublist a) (hright : t.Sublist b) :
    t.length ≤ lcsLength a b := by
  induction a, b using lcsLength.induct generalizing t with
  | case1 b =>
    have hnil := List.sublist_nil.mp hleft
    simp [hnil]
  | case2 x a =>
    have hnil := List.sublist_nil.mp hright
    simp [hnil]
  | case3 a y b ih =>
    have htail := ih (tail_sublist_of_sublist_cons hleft) (tail_sublist_of_sublist_cons hright)
    rw [List.length_tail] at htail
    rw [lcsLength_cons_same]
    omega
  | case4 x a y b hne ihDown ihRight =>
    rw [lcsLength_cons_ne hne]
    obtain hskip | ⟨t, rfl, hsub⟩ := List.sublist_cons_iff.mp hleft
    · exact le_max_of_le_left (ihDown hskip hright)
    · obtain hskip | ⟨t', hcons, -⟩ := List.sublist_cons_iff.mp hright
      · exact le_max_of_le_right (ihRight hleft hskip)
      · exact absurd (List.cons.inj hcons).1 hne

theorem exists_length_eq_lcsLength (a b : List α) :
    ∃ t : List α, t.Sublist a ∧ t.Sublist b ∧ t.length = lcsLength a b := by
  induction a, b using lcsLength.induct with
  | case1 b => exact ⟨[], List.nil_sublist _, List.nil_sublist _, by simp⟩
  | case2 x a => exact ⟨[], List.nil_sublist _, List.nil_sublist _, by simp⟩
  | case3 a y b ih =>
    obtain ⟨t, hleft, hright, hlength⟩ := ih
    exact ⟨y :: t, hleft.cons_cons y, hright.cons_cons y, by rw [lcsLength_cons_same, List.length_cons, hlength]⟩
  | case4 x a y b hne ihDown ihRight =>
    rw [lcsLength_cons_ne hne]
    obtain ⟨t, hleft, hright, hlength⟩ := ihDown
    obtain ⟨t', hleft', hright', hlength'⟩ := ihRight
    obtain hle | hle := le_total (lcsLength a (y :: b)) (lcsLength (x :: a) b)
    · exact ⟨t', hleft', hright'.cons y, by rw [max_eq_right hle, hlength']⟩
    · exact ⟨t, hleft.cons x, hright, by rw [max_eq_left hle, hlength]⟩

theorem lcsLength_le_of_sublist {a a' b b' : List α} (hleft : a.Sublist a') (hright : b.Sublist b') :
    lcsLength a b ≤ lcsLength a' b' := by
  obtain ⟨t, hta, htb, hlength⟩ := exists_length_eq_lcsLength a b
  rw [← hlength]
  exact length_le_lcsLength (hta.trans hleft) (htb.trans hright)

theorem isLongest_of_length {a b s : List α} (hleft : s.Sublist a) (hright : s.Sublist b)
    (hlength : s.length = lcsLength a b) : IsLongest a b s where
  left := hleft
  right := hright
  longest _ hta htb := hlength ▸ length_le_lcsLength hta htb

end Squaero.Lib
