import Mathlib.Data.List.Nodup
import Mathlib.Logic.Function.Basic

/-!
# Tokens and their owners

Each token that is out has one owner, and an owner holds at most one token. A token that is given is a new one, and
a token that is taken back goes with its owner's.
-/

namespace Squaero.Lib

variable {κ τ : Type*}

structure Owns (tokens : List τ) (holder : κ → Option τ) : Prop where
  nodup : tokens.Nodup
  mem_iff : ∀ t, t ∈ tokens ↔ ∃ k, holder k = some t
  alone : ∀ k k' t, holder k = some t → holder k' = some t → k = k'

namespace Owns

theorem empty : Owns ([] : List τ) (fun _ : κ ↦ none) where
  nodup := List.nodup_nil
  mem_iff t := by simp
  alone k k' t h := by cases h

variable [DecidableEq κ] {tokens : List τ} {holder : κ → Option τ} {k : κ}

/-- A new token, or none, for an owner without one. -/
theorem give (h : Owns tokens holder) (hk : holder k = none) {token : Option τ} (hnew : ∀ t ∈ token, t ∉ tokens) :
    Owns (token.toList ++ tokens) (Function.update holder k token) := by
  have hother {k' : κ} {t : τ} (ht : holder k' = some t) : Function.update holder k token k' = some t := by
    have hne : k' ≠ k := by
      rintro rfl
      rw [hk] at ht
      cases ht
    rw [Function.update_of_ne hne, ht]
  have hheld {k' : κ} {t : τ} (ht : holder k' = some t) : t ∈ tokens := (h.mem_iff t).mpr ⟨k', ht⟩
  constructor
  · cases token with
    | none => exact h.nodup
    | some t => exact List.nodup_cons.mpr ⟨hnew t rfl, h.nodup⟩
  · intro t
    rw [List.mem_append, Option.mem_toList]
    constructor
    · rintro (htoken | ht)
      · exact ⟨k, by rw [Function.update_self, htoken]⟩
      · obtain ⟨k', hk'⟩ := (h.mem_iff t).mp ht
        exact ⟨k', hother hk'⟩
    · rintro ⟨k', hk'⟩
      by_cases hsame : k' = k
      · subst hsame
        rw [Function.update_self] at hk'
        exact .inl hk'
      · rw [Function.update_of_ne hsame] at hk'
        exact .inr (hheld hk')
  · intro k₁ k₂ t h₁ h₂
    by_cases hone : k₁ = k <;> by_cases htwo : k₂ = k
    · rw [hone, htwo]
    · subst hone
      rw [Function.update_self] at h₁
      rw [Function.update_of_ne htwo] at h₂
      exact absurd (hheld h₂) (hnew t h₁)
    · subst htwo
      rw [Function.update_self] at h₂
      rw [Function.update_of_ne hone] at h₁
      exact absurd (hheld h₁) (hnew t h₂)
    · rw [Function.update_of_ne hone] at h₁
      rw [Function.update_of_ne htwo] at h₂
      exact h.alone k₁ k₂ t h₁ h₂

/-- The token of one owner is taken back. -/
theorem take [DecidableEq τ] (h : Owns tokens holder) (k : κ) :
    Owns ((holder k).elim tokens tokens.erase) (Function.update holder k none) := by
  have hmem (t : τ) : t ∈ (holder k).elim tokens tokens.erase ↔ t ∈ tokens ∧ holder k ≠ some t := by
    cases hk : holder k with
    | none => simp
    | some held =>
      rw [Option.elim_some, h.nodup.mem_erase_iff, and_comm, ne_comm, ne_eq, ne_eq, Option.some.injEq]
  have hkept {k' : κ} {t : τ} : Function.update holder k none k' = some t ↔ k' ≠ k ∧ holder k' = some t := by
    by_cases hsame : k' = k
    · subst hsame
      simp
    · simp [hsame]
  constructor
  · cases holder k with
    | none => exact h.nodup
    | some held => exact h.nodup.erase held
  · intro t
    rw [hmem, h.mem_iff]
    constructor
    · rintro ⟨⟨k', hk'⟩, hne⟩
      exact ⟨k', hkept.mpr ⟨fun hsame ↦ hne (hsame ▸ hk'), hk'⟩⟩
    · rintro ⟨k', hk'⟩
      obtain ⟨hne, hheld⟩ := hkept.mp hk'
      exact ⟨⟨k', hheld⟩, fun hsame ↦ hne (h.alone k' k t hheld hsame)⟩
  · intro k₁ k₂ t h₁ h₂
    exact h.alone k₁ k₂ t (hkept.mp h₁).2 (hkept.mp h₂).2

end Owns

end Squaero.Lib
