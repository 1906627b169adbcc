import Mathlib.Data.List.Basic

/-!
# Output buffers

A buffer of fixed size that is written from its start on. A store past its end has no result, so a writer that has a
result stays within the buffer.
-/

namespace Squaero.Lib

universe u

/-- What has been written, and how many places are left. -/
structure OutBuffer (α : Type u) where
  written : List α
  room : ℕ
  deriving DecidableEq, Repr

namespace OutBuffer

variable {α : Type u}

def ofSize (size : ℕ) : OutBuffer α := ⟨[], size⟩

/-- A store at the next place. -/
def put (o : OutBuffer α) (x : α) : Option (OutBuffer α) :=
  if 0 < o.room then some ⟨o.written ++ [x], o.room - 1⟩ else none

def putAll (o : OutBuffer α) (xs : List α) : Option (OutBuffer α) := xs.foldlM put o

/-- The buffer once `xs` is in it. -/
def filled (o : OutBuffer α) (xs : List α) : OutBuffer α := ⟨o.written ++ xs, o.room - xs.length⟩

@[simp]
theorem filled_nil (o : OutBuffer α) : o.filled [] = o := by
  simp [filled]

@[simp]
theorem filled_filled (o : OutBuffer α) (xs ys : List α) : (o.filled xs).filled ys = o.filled (xs ++ ys) := by
  simp [filled, Nat.sub_sub]

theorem put_eq_filled {o : OutBuffer α} (h : 0 < o.room) (x : α) : o.put x = some (o.filled [x]) := if_pos h

theorem putAll_eq_filled {o : OutBuffer α} {xs : List α} (h : xs.length ≤ o.room) :
    o.putAll xs = some (o.filled xs) := by
  unfold putAll
  induction xs generalizing o with
  | nil => simp
  | cons x xs ih =>
    rw [List.length_cons] at h
    have hrest : xs.length ≤ (o.filled [x]).room := Nat.le_sub_one_of_lt h
    calc (x :: xs).foldlM put o
        = (o.put x).bind (xs.foldlM put ·) := List.foldlM_cons
      _ = xs.foldlM put (o.filled [x]) := by rw [put_eq_filled (by omega), Option.bind_some]
      _ = some (o.filled (x :: xs)) := by rw [ih hrest, filled_filled, List.singleton_append]

end OutBuffer

end Squaero.Lib
