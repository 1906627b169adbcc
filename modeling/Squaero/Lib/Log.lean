import Mathlib.Data.List.Basic

/-!
# Logs

A log is a list whose latest entry comes last. `Since P Q` says that some entry has `P`, which may
look at what came before it, and that no later entry has `Q`. `Each P` says of every entry that what
came before it allowed it.
-/

namespace Squaero.Lib.Log

universe u

variable {α : Type u} {P : List α → α → Prop} {Q : α → Prop} {log : List α} {x : α}

def Since (P : List α → α → Prop) (Q : α → Prop) (log : List α) : Prop :=
  ∃ before x after, log = before ++ x :: after ∧ P before x ∧ ∀ y ∈ after, ¬ Q y

/-- One more entry either is the one, or leaves the earlier one standing. -/
theorem since_concat : Since P Q (log ++ [x]) ↔ P log x ∨ Since P Q log ∧ ¬ Q x := by
  constructor
  · rintro ⟨before, y, after, hlog, hy, hafter⟩
    rcases after.eq_nil_or_concat with rfl | ⟨init, z, rfl⟩
    · obtain ⟨rfl, hxy⟩ := List.append_inj' hlog rfl
      cases hxy
      exact .inl hy
    · rw [List.concat_eq_append, ← List.cons_append, ← List.append_assoc] at hlog
      obtain ⟨rfl, hxz⟩ := List.append_inj' hlog rfl
      cases hxz
      rw [List.concat_eq_append] at hafter
      refine .inr ⟨⟨before, y, init, rfl, hy, fun z hz ↦ hafter z ?_⟩, hafter x ?_⟩
      · exact List.mem_append_left _ hz
      · exact List.mem_append_right _ (List.mem_singleton_self x)
  · rintro (hx | ⟨⟨before, y, after, rfl, hy, hafter⟩, hx⟩)
    · exact ⟨log, x, [], rfl, hx, by simp⟩
    · refine ⟨before, y, after ++ [x], by simp, hy, fun z hz ↦ ?_⟩
      rcases List.mem_append.1 hz with hz | hz
      · exact hafter z hz
      · rwa [List.mem_singleton.1 hz]

def Each (P : List α → α → Prop) (log : List α) : Prop :=
  ∀ before x after, log = before ++ x :: after → P before x

@[simp]
theorem each_nil : Each P [] := fun before x after hlog ↦
  absurd hlog.symm (List.append_ne_nil_of_right_ne_nil before (List.cons_ne_nil x after))

theorem each_concat : Each P (log ++ [x]) ↔ Each P log ∧ P log x := by
  constructor
  · intro h
    refine ⟨fun before y after hlog ↦ h before y (after ++ [x]) ?_, h log x [] rfl⟩
    rw [hlog, List.append_assoc, List.cons_append]
  · intro h before y after hlog
    rcases after.eq_nil_or_concat with hnil | ⟨init, z, hafter⟩
    · rw [hnil] at hlog
      obtain ⟨hbefore, hxy⟩ := List.append_inj' hlog rfl
      rw [← hbefore, ← List.singleton_inj.mp hxy]
      exact h.2
    · rw [hafter, List.concat_eq_append, ← List.cons_append, ← List.append_assoc] at hlog
      exact h.1 before y init (List.append_inj' hlog rfl).1

end Squaero.Lib.Log
