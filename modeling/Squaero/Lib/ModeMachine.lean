import Mathlib.Data.List.Basic

/-!
# Scanners that read one character at a time

A scanner of program text is a finite control with unbounded lookahead: in a mode it reads one
character, may look at the text behind it, emits something for the character and changes mode.
`run` drives such a machine over a whole text and `runPrefix` over a part of it whose
continuation is known, which is what a lookahead needs.
`Along` states what holds at every position a machine visits.
-/

namespace Squaero.Lib.ModeMachine

universe u v w

variable {α : Type u} {β : Type v} {μ : Type w}

/-- One step: the mode, the character read and the text behind it give what is emitted for the
character and the mode behind it. -/
abbrev Step (α : Type u) (β : Type v) (μ : Type w) := μ → α → List α → β × μ

/-- What the machine emits, one item a character. -/
def run (step : Step α β μ) : μ → List α → List β
  | _, [] => []
  | mode, c :: rest => (step mode c rest).1 :: run step (step mode c rest).2 rest

/-- The machine over `text` when `tail` follows it: the items emitted and the mode reached. -/
def runPrefix (step : Step α β μ) : μ → List α → List α → List β × μ
  | mode, [], _ => ([], mode)
  | mode, c :: rest, tail =>
    let next := step mode c (rest ++ tail)
    let after := runPrefix step next.2 rest tail
    (next.1 :: after.1, after.2)

/-- `P` holds at every position the machine visits. -/
def Along (step : Step α β μ) (P : μ → α → List α → Prop) : μ → List α → Prop
  | _, [] => True
  | mode, c :: rest => P mode c rest ∧ Along step P (step mode c rest).2 rest

/-- The mode behind the text. -/
def final (step : Step α β μ) : μ → List α → μ
  | mode, [] => mode
  | mode, c :: rest => final step (step mode c rest).2 rest

variable {step : Step α β μ}

@[simp]
theorem run_nil (mode : μ) : run step mode [] = [] := rfl

@[simp]
theorem run_cons (mode : μ) (c : α) (rest : List α) :
    run step mode (c :: rest) = (step mode c rest).1 :: run step (step mode c rest).2 rest := rfl

@[simp]
theorem runPrefix_nil (mode : μ) (tail : List α) : runPrefix step mode [] tail = ([], mode) := rfl

@[simp]
theorem runPrefix_cons (mode : μ) (c : α) (rest tail : List α) :
    runPrefix step mode (c :: rest) tail =
      ((step mode c (rest ++ tail)).1 ::
        (runPrefix step (step mode c (rest ++ tail)).2 rest tail).1,
        (runPrefix step (step mode c (rest ++ tail)).2 rest tail).2) := rfl

@[simp]
theorem length_run (mode : μ) (text : List α) : (run step mode text).length = text.length := by
  induction text generalizing mode with
  | nil => rfl
  | cons c rest ih => simp [ih]

@[simp]
theorem length_runPrefix (mode : μ) (text tail : List α) :
    (runPrefix step mode text tail).1.length = text.length := by
  induction text generalizing mode with
  | nil => rfl
  | cons c rest ih => simp [ih]

/-- A run splits at any point into a prefix that knows what follows and a run from the mode it
reaches. -/
theorem run_append (mode : μ) (text tail : List α) :
    run step mode (text ++ tail) =
      (runPrefix step mode text tail).1 ++ run step (runPrefix step mode text tail).2 tail := by
  induction text generalizing mode with
  | nil => rfl
  | cons c rest ih => simp [ih]

theorem runPrefix_append (mode : μ) (text more tail : List α) :
    runPrefix step mode (text ++ more) tail =
      ((runPrefix step mode text (more ++ tail)).1 ++
        (runPrefix step (runPrefix step mode text (more ++ tail)).2 more tail).1,
        (runPrefix step (runPrefix step mode text (more ++ tail)).2 more tail).2) := by
  induction text generalizing mode with
  | nil => rfl
  | cons c rest ih => simp [ih, List.append_assoc]

/-- Two machines that emit the same at every position where `P` holds of the first, and keep their
modes related there, emit the same text. -/
theorem run_eq_run_of_along {ν : Type*} {other : Step α β ν} {P : μ → α → List α → Prop}
    {R : μ → ν → Prop}
    (hstep : ∀ mode place c rest, R mode place → P mode c rest →
      (step mode c rest).1 = (other place c rest).1 ∧
        R (step mode c rest).2 (other place c rest).2)
    {mode : μ} {place : ν} (hR : R mode place) {text : List α} (hP : Along step P mode text) :
    run step mode text = run other place text := by
  induction text generalizing mode place with
  | nil => rfl
  | cons c rest ih =>
    obtain ⟨hemit, hnext⟩ := hstep mode place c rest hR hP.1
    rw [run_cons, run_cons, hemit, ih hnext hP.2]

end Squaero.Lib.ModeMachine
