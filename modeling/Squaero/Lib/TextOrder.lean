import Mathlib.Data.Int.Order.Basic
import Mathlib.Data.List.Lex
import Squaero.Lib.Text

/-!
# Texts in the order of JavaScript

`<` on strings of JavaScript compares their UTF-16 code units. A character outside the basic plane is two
surrogates, so the order is not the one of the code points.
-/

namespace Squaero.Lib

/-- The code units of one character. -/
def unitsOf (c : Char) : List ℕ :=
  if c.toNat < 0x10000 then [c.toNat]
  else [0xD800 + (c.toNat - 0x10000) / 0x400, 0xDC00 + (c.toNat - 0x10000) % 0x400]

/-- The code units of a text. -/
def codeUnits (text : Text) : List ℕ := text.flatMap unitsOf

/-- The sign of a comparison: `a < b ? -1 : a > b ? 1 : 0`. -/
def compareUnits (a b : Text) : ℤ :=
  if codeUnits a < codeUnits b then -1 else if codeUnits b < codeUnits a then 1 else 0

theorem toNat_not_surrogate (c : Char) : c.toNat < 0xD800 ∨ 0xDFFF < c.toNat ∧ c.toNat < 0x110000 := by
  have hvalid := c.valid
  unfold UInt32.isValidChar Nat.isValidChar at hvalid
  have hval : c.toNat = c.val.toNat := rfl
  omega

/-- The first code units of two texts tell their first characters. -/
theorem unitsOf_append_inj {c d : Char} {us vs : List ℕ} (h : unitsOf c ++ us = unitsOf d ++ vs) :
    c = d ∧ us = vs := by
  have hc := toNat_not_surrogate c
  have hd := toNat_not_surrogate d
  unfold unitsOf at h
  split at h <;> split at h
  · simp only [List.cons_append, List.nil_append, List.cons.injEq] at h
    exact ⟨Char.toNat_inj.mp h.1, h.2⟩
  · simp only [List.cons_append, List.nil_append, List.cons.injEq] at h
    omega
  · simp only [List.cons_append, List.nil_append, List.cons.injEq] at h
    omega
  · simp only [List.cons_append, List.nil_append, List.cons.injEq] at h
    exact ⟨Char.toNat_inj.mp (by omega), h.2.2⟩

theorem codeUnits_injective : Function.Injective codeUnits := by
  have hpos (c : Char) (us : List ℕ) : unitsOf c ++ us ≠ [] := by
    unfold unitsOf
    split <;> simp
  intro a b h
  induction a generalizing b with
  | nil =>
    cases b with
    | nil => rfl
    | cons d b => exact absurd h.symm (hpos d (codeUnits b))
  | cons c a ih =>
    cases b with
    | nil => exact absurd h (hpos c (codeUnits a))
    | cons d b =>
      obtain ⟨rfl, htail⟩ := @unitsOf_append_inj c d (codeUnits a) (codeUnits b) h
      rw [ih htail]

theorem compareUnits_eq_zero {a b : Text} : compareUnits a b = 0 ↔ a = b := by
  unfold compareUnits
  obtain hlt | heq | hgt := lt_trichotomy (codeUnits a) (codeUnits b)
  · rw [if_pos hlt]
    exact iff_of_false (by decide) fun h ↦ hlt.ne (congrArg codeUnits h)
  · rw [if_neg heq.not_lt, if_neg heq.not_gt]
    exact iff_of_true rfl (codeUnits_injective heq)
  · rw [if_neg hgt.not_gt, if_pos hgt]
    exact iff_of_false (by decide) fun h ↦ hgt.ne' (congrArg codeUnits h)

theorem compareUnits_neg {a b : Text} : compareUnits a b < 0 ↔ codeUnits a < codeUnits b := by
  unfold compareUnits
  split_ifs with hlt hgt
  · exact iff_of_true (by decide) hlt
  · exact iff_of_false (by decide) hlt
  · exact iff_of_false (by decide) hlt

theorem compareUnits_nonpos {a b : Text} : compareUnits a b ≤ 0 ↔ codeUnits a ≤ codeUnits b := by
  calc compareUnits a b ≤ 0
    _ ↔ compareUnits a b < 0 ∨ compareUnits a b = 0 := le_iff_lt_or_eq
    _ ↔ codeUnits a < codeUnits b ∨ codeUnits a = codeUnits b := by
      rw [compareUnits_neg, compareUnits_eq_zero, codeUnits_injective.eq_iff]
    _ ↔ codeUnits a ≤ codeUnits b := le_iff_lt_or_eq.symm

end Squaero.Lib
