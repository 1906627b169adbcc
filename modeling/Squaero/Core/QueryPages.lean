import Squaero.Core.Frame

/-!
# Queries as pages of executions

The pages of `dbcore_query_run`, `dbcore_query_open` and `dbcore_query_next`, in terms of the
executions behind them.
-/

namespace Squaero.Core

open Squaero.Lib

variable {σ : Type} {env : Env σ} {record : σ → ResultId → Option Execution}
  {r : ResultId} {e : Execution} {driver sql : Text} {handle : Handle} {maxRows offset : ℕ}

/-- Whenever the driver runs `sql` with success, the execution is one of these. -/
def Runs (env : Env σ) (record : σ → ResultId → Option Execution) (driver sql : Text)
    (these : Execution → Prop) : Prop :=
  ∀ handle r s, (env.answer driver (.query handle sql r) s).1 = (.ok, true) →
    ∃ e, these e ∧ record (env.answer driver (.query handle sql r) s).2 r = some e

/-- Running `sql` never fails. -/
def Succeeds (env : Env σ) (driver sql : Text) : Prop :=
  ∀ handle r s, (env.answer driver (.query handle sql r) s).1 = (.ok, true)

variable {these : Execution → Prop}

theorem openResult_runs (hruns : Runs env record driver sql these) {P : World σ → Prop} :
    Triple P (openResult env driver handle sql)
      fun opened w ↦ (∃ failure, opened = .error failure) ∧ ¬ Succeeds env driver sql ∨
        ∃ r e, opened = .ok r ∧ these e ∧ Recorded record r e w := by
  apply Triple.bind (Q := fun _ _ ↦ True)
  · exact ⟨fun w hw ↦ trivial⟩
  intro r
  apply Triple.bind (Q := fun answer w ↦ answer ≠ (.ok, true) ∧ ¬ Succeeds env driver sql ∨
    answer = (.ok, true) ∧ ∃ e, these e ∧ Recorded record r e w)
  · refine ⟨fun w _ ↦ ?_⟩
    by_cases hok : (env.answer driver (.query handle sql r) w.drivers).1 = (.ok, true)
    · exact .inr ⟨hok, hruns handle r w.drivers hok⟩
    · exact .inl ⟨hok, fun hsucceeds ↦ hok (hsucceeds handle r w.drivers)⟩
  rintro ⟨st, given⟩
  by_cases hok : (st, given) = (.ok, true)
  · cases hok
    refine .pure fun w hw ↦ .inr ?_
    rcases hw with ⟨hne, -⟩ | ⟨-, e, he, hw⟩
    · exact absurd rfl hne
    · exact ⟨r, e, rfl, he, hw⟩
  have hfail {m : CoreM σ (Except (Status × Text) ResultId)}
      (hm : Triple (fun _ ↦ True) m fun opened _ ↦ ∃ failure, opened = .error failure) :
      Triple (fun w ↦ (st, given) ≠ (.ok, true) ∧ ¬ Succeeds env driver sql ∨
        (st, given) = (.ok, true) ∧ ∃ e, these e ∧ Recorded record r e w) m
        fun opened w ↦ (∃ failure, opened = .error failure) ∧ ¬ Succeeds env driver sql ∨
          ∃ r e, opened = .ok r ∧ these e ∧ Recorded record r e w := by
    refine ⟨fun w hw ↦ .inl ⟨hm.run w trivial, ?_⟩⟩
    rcases hw with ⟨-, hsucceeds⟩ | ⟨heq, -⟩
    · exact hsucceeds
    · exact absurd heq hok
  apply hfail
  apply Triple.ite
  · intro hst
    apply Triple.bind (Q := fun _ _ ↦ True) ⟨fun _ _ ↦ trivial⟩
    intro msg
    apply Triple.ite
    · intro hgiven
      apply Triple.bind (Q := fun _ _ ↦ True) ⟨fun _ _ ↦ trivial⟩
      intro _
      exact .pure fun w hw ↦ ⟨_, rfl⟩
    · intro hgiven
      exact .pure fun w hw ↦ ⟨_, rfl⟩
  intro hst
  apply Triple.ite
  · intro hgiven
    exact .pure fun w hw ↦ ⟨_, rfl⟩
  · intro hgiven
    have hst : st = .ok := not_not.1 hst
    have hgiven : given = true := by simpa using hgiven
    exact absurd (by rw [hst, hgiven]) hok

/-- A page comes from an execution of `sql`, unless running it failed. -/
def Serves (env : Env σ) (record : σ → ResultId → Option Execution) (driver sql : Text)
    (these : Execution → Prop) (offset maxRows : ℕ) (keepOpen : Bool)
    (page : Except (Status × Text) (Result × Option ResultId)) (w : World σ) : Prop :=
  (∃ failure, page = .error failure) ∧ ¬ Succeeds env driver sql ∨
    ∃ r e, these e ∧ Pages env record r e offset maxRows keepOpen (page.map Prod.fst) w ∧
      ∀ res cursor, page = .ok (res, cursor) →
        cursor = if keepOpen && res.truncated then some r else none

/-- From a result in hand on, the pages are those of its execution. -/
theorem triple_opened {β : Type} {m : CoreM σ β} {Q : β → World σ → Prop}
    (hm : ∀ e, these e → Triple (Recorded record r e) m Q) :
    Triple (fun w ↦
      (∃ failure : Status × Text, Except.ok r = .error failure) ∧ ¬ Succeeds env driver sql ∨
        ∃ r' e, (Except.ok r : Except (Status × Text) ResultId) = .ok r' ∧ these e ∧ Recorded record r' e w) m Q := by
  refine ⟨fun w hw ↦ ?_⟩
  rcases hw with ⟨⟨failure, hopened⟩, -⟩ | ⟨r', e, hopened, he, hw⟩
  · cases hopened
  · cases hopened
    exact (hm e he).run w hw

theorem triple_notOpened {β : Type} {failure : Status × Text} {a : β} {Q : β → World σ → Prop}
    (ha : ¬ Succeeds env driver sql → ∀ w, Q a w) :
    Triple (fun w ↦
      (∃ failure', (Except.error failure : Except (Status × Text) ResultId) = .error failure') ∧
          ¬ Succeeds env driver sql ∨
        ∃ r e, Except.error failure = .ok r ∧ these e ∧ Recorded record r e w)
      (pure a : CoreM σ β) Q := by
  refine .pure fun w hw ↦ ?_
  rcases hw with ⟨-, hsucceeds⟩ | ⟨r, e, hopened, -⟩
  · exact ha hsucceeds w
  · cases hopened

theorem queryRun_serves (hc : Contract env record) (hruns : Runs env record driver sql these)
    (hmax : 0 < maxRows) {P : World σ → Prop} :
    Triple P (queryRun env driver handle sql maxRows offset)
      fun page ↦ Serves env record driver sql these offset maxRows false
        (page.map fun res ↦ (res, none)) := by
  apply Triple.bind (openResult_runs hruns)
  intro opened
  cases opened with
  | error failure => exact triple_notOpened fun hsucceeds w ↦ .inl ⟨⟨failure, rfl⟩, hsucceeds⟩
  | ok r =>
    refine triple_opened fun e he ↦ ?_
    apply (materialize_page hc hmax fun h ↦ absurd h Bool.false_ne_true).post
    intro page w hw
    refine .inr ⟨r, e, he, ?_, fun res cursor hpage ↦ ?_⟩
    · cases page <;> exact hw
    · cases page <;> cases hpage
      rfl

theorem queryOpen_serves (hc : Contract env record) (hruns : Runs env record driver sql these)
    (hmax : 0 < maxRows) {P : World σ → Prop} :
    Triple P (queryOpen env driver handle sql maxRows)
      (Serves env record driver sql these 0 maxRows true) := by
  apply Triple.bind (openResult_runs hruns)
  intro opened
  cases opened with
  | error failure => exact triple_notOpened fun hsucceeds w ↦ .inl ⟨⟨failure, rfl⟩, hsucceeds⟩
  | ok r =>
    refine triple_opened fun e he ↦ ?_
    apply Triple.bind (materialize_page hc hmax fun _ ↦ rfl)
    intro page
    cases page with
    | error failure => exact .pure fun w hw ↦ .inr ⟨r, e, he, hw, fun res cursor h ↦ by cases h⟩
    | ok res =>
      refine .pure fun w hw ↦ .inr ⟨r, e, he, hw, fun res' cursor hpage ↦ ?_⟩
      cases hpage
      rfl

theorem queryNext_pages (hc : Contract env record) (hmax : 0 < maxRows) :
    Triple (Recorded record r e) (queryNext env driver handle r maxRows)
      fun page w ↦ Pages env record r e 0 maxRows true (page.map Prod.fst) w ∧
        ∀ res isOpen, page = .ok (res, isOpen) → isOpen = res.truncated := by
  apply Triple.bind (materialize_page hc hmax fun _ ↦ rfl)
  intro page
  cases page with
  | error failure => exact .pure fun w hw ↦ ⟨hw, fun res isOpen h ↦ by cases h⟩
  | ok res =>
    refine .pure fun w hw ↦ ⟨hw, fun res' isOpen hpage ↦ ?_⟩
    cases hpage
    rfl

end Squaero.Core
