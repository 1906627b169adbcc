import Mathlib.Init

/-!
# Triples for state-passing programs

`Triple P m Q` says of a program `m : StateM W α` that from every state with `P` it returns a value
and a state with `Q`. The rules follow the program: one for each way to build it.
-/

namespace Squaero.Lib

universe u

variable {W α β : Type u}

structure Triple (P : W → Prop) (m : StateM W α) (Q : α → W → Prop) : Prop where
  run : ∀ w, P w → Q (m.run w).1 (m.run w).2

namespace Triple

variable {P S : W → Prop} {Q Q' : α → W → Prop} {R : β → W → Prop}

theorem pure {a : α} (h : ∀ w, P w → Q a w) : Triple P (Pure.pure a) Q := ⟨h⟩

theorem bind {m : StateM W α} {f : α → StateM W β} (hm : Triple P m Q)
    (hf : ∀ a, Triple (Q a) (f a) R) : Triple P (m >>= f) R :=
  ⟨fun w hw ↦ (hf _).run _ (hm.run w hw)⟩

/-- The last step of a program that returns a value of its own. -/
theorem thenReturn {m : StateM W β} {a : α} (hm : Triple P m fun _ ↦ Q a) :
    Triple P (m >>= fun _ ↦ Pure.pure a) Q := ⟨hm.run⟩

theorem get {Q : W → W → Prop} (h : ∀ w, P w → Q w w) : Triple P MonadState.get Q := ⟨h⟩

theorem modify {Q : PUnit → W → Prop} {f : W → W} (h : ∀ w, P w → Q ⟨⟩ (f w)) :
    Triple P (modify f) Q := ⟨h⟩

theorem map {m : StateM W α} {f : α → β} (hm : Triple P m fun a ↦ R (f a)) :
    Triple P (f <$> m) R := ⟨hm.run⟩

theorem pre {m : StateM W α} (hm : Triple S m Q) (h : ∀ w, P w → S w) : Triple P m Q :=
  ⟨fun w hw ↦ hm.run w (h w hw)⟩

theorem post {m : StateM W α} (hm : Triple P m Q) (h : ∀ a w, Q a w → Q' a w) :
    Triple P m Q' :=
  ⟨fun w hw ↦ h _ _ (hm.run w hw)⟩

/-- What does not speak of the state moves in and out of the precondition. -/
theorem of_imp {φ : Prop} {m : StateM W α} (h : φ → Triple P m Q) :
    Triple (fun w ↦ φ ∧ P w) m Q :=
  ⟨fun w hw ↦ (h hw.1).run w hw.2⟩

theorem exists_pre {ι : Sort*} {P : ι → W → Prop} {m : StateM W α}
    (h : ∀ i, Triple (P i) m Q) : Triple (fun w ↦ ∃ i, P i w) m Q :=
  ⟨fun w ⟨i, hw⟩ ↦ (h i).run w hw⟩

theorem ite {c : Prop} [Decidable c] {m m' : StateM W α} (hm : c → Triple P m Q)
    (hm' : ¬ c → Triple P m' Q) : Triple P (if c then m else m') Q := by
  split
  next h => exact hm h
  next h => exact hm' h

end Triple

end Squaero.Lib
