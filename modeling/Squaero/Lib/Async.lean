import Mathlib.Init

/-!
# Asynchronous programs

A program of promises run one after the other: it reads and writes a state and either resolves with a
value or rejects with a reason. `Settles P m Q R` says that from every state with `P` it resolves with
`Q` or rejects with `R`. There is one rule for each way to build a program; `attempt` is a `try` whose
`catch` looks at the reason.
-/

namespace Squaero.Lib

universe u

variable {W E α β : Type u}

abbrev Async (W E α : Type u) := ExceptT E (StateM W) α

namespace Async

/-- The promise settles, and the state with it. -/
def settle (m : Async W E α) (w : W) : Except E α × W := StateT.run (ExceptT.run m) w

/-- A step that always resolves. -/
def step (f : W → α × W) : Async W E α := ExceptT.lift f

/-- A promise already settled. -/
def settled : Except E α → Async W E α
  | .ok a => pure a
  | .error e => throw e

/-- How the promise settles, as a value. -/
def attempt (m : Async W E α) : Async W E (Except E α) := step fun w ↦ m.settle w

@[simp]
theorem settle_pure (a : α) (w : W) : settle (pure a : Async W E α) w = (.ok a, w) := rfl

@[simp]
theorem settle_throw (e : E) (w : W) : settle (throw e : Async W E α) w = (.error e, w) := rfl

@[simp]
theorem settle_step (f : W → α × W) (w : W) :
    settle (step f : Async W E α) w = (.ok (f w).1, (f w).2) := rfl

@[simp]
theorem settle_settled (r : Except E α) (w : W) : settle (settled r) w = (r, w) := by
  cases r <;> rfl

@[simp]
theorem settle_attempt (m : Async W E α) (w : W) :
    m.attempt.settle w = (.ok (m.settle w).1, (m.settle w).2) := rfl

theorem settle_bind (m : Async W E α) (f : α → Async W E β) (w : W) :
    (m >>= f).settle w =
      match m.settle w with
      | (.ok a, w') => (f a).settle w'
      | (.error e, w') => (.error e, w') := by
  change (StateT.run (ExceptT.run m >>= ExceptT.bindCont f) w) = _
  change (match StateT.run (ExceptT.run m) w with
    | (r, w') => StateT.run (ExceptT.bindCont f r) w') = _
  rw [settle]
  rcases StateT.run (ExceptT.run m) w with ⟨_ | a, w'⟩ <;> rfl

end Async

structure Settles (P : W → Prop) (m : Async W E α) (Q : α → W → Prop) (R : E → W → Prop) :
    Prop where
  run : ∀ w, P w → match m.settle w with
    | (.ok a, w') => Q a w'
    | (.error e, w') => R e w'

namespace Settles

variable {P S : W → Prop} {Q Q' : α → W → Prop} {R R' : E → W → Prop} {T : β → W → Prop}
  {m : Async W E α}

theorem pure {a : α} (h : ∀ w, P w → Q a w) : Settles P (Pure.pure a) Q R := ⟨h⟩

theorem throw {e : E} (h : ∀ w, P w → R e w) : Settles P (MonadExcept.throw e) Q R := ⟨h⟩

theorem step {f : W → α × W} (h : ∀ w, P w → Q (f w).1 (f w).2) :
    Settles P (Async.step f) Q R := ⟨h⟩

theorem settled {r : Except E α} (hok : ∀ a, r = .ok a → ∀ w, P w → Q a w)
    (herror : ∀ e, r = .error e → ∀ w, P w → R e w) : Settles P (Async.settled r) Q R := by
  cases r with
  | ok a => exact .pure (hok a rfl)
  | error e => exact .throw (herror e rfl)

theorem bind {f : α → Async W E β} (hm : Settles P m Q R) (hf : ∀ a, Settles (Q a) (f a) T R) :
    Settles P (m >>= f) T R := by
  refine ⟨fun w hw ↦ ?_⟩
  have hrun := hm.run w hw
  rw [Async.settle_bind]
  generalize m.settle w = settled at hrun ⊢
  rcases settled with ⟨e | a, w'⟩
  · exact hrun
  · exact (hf a).run w' hrun

/-- `try`: both ways to settle go on. -/
theorem attempt (hm : Settles P m Q R) :
    Settles P m.attempt (fun r w ↦ match r with
      | .ok a => Q a w
      | .error e => R e w) R' := by
  refine ⟨fun w hw ↦ ?_⟩
  have hrun := hm.run w hw
  rw [Async.settle_attempt]
  generalize m.settle w = settled at hrun ⊢
  rcases settled with ⟨e | a, w'⟩ <;> exact hrun

theorem conseq (hm : Settles P m Q R) (hpre : ∀ w, S w → P w) (hok : ∀ a w, Q a w → Q' a w)
    (herror : ∀ e w, R e w → R' e w) : Settles S m Q' R' := by
  refine ⟨fun w hw ↦ ?_⟩
  have hrun := hm.run w (hpre w hw)
  generalize m.settle w = settled at hrun ⊢
  rcases settled with ⟨e | a, w'⟩
  · exact herror e w' hrun
  · exact hok a w' hrun

theorem ite {c : Prop} [Decidable c] {m' : Async W E α} (hm : c → Settles P m Q R)
    (hm' : ¬ c → Settles P m' Q R) : Settles P (if c then m else m') Q R := by
  split
  next h => exact hm h
  next h => exact hm' h

end Settles

end Squaero.Lib
