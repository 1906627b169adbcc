import Squaero.Lib.Async
import Squaero.Lib.Text

/-!
# Importing rows

`runImport` of `frontend/src/utils/importers.ts`: the rows go in one transaction, through four
operations that may each reject. A commit that rejects leaves the transaction to nobody; on every other
way out it was committed or rolled back.
-/

namespace Squaero.Front

open Squaero.Lib

abbrev Cell := Option Text

structure ParsedTable where
  headers : List Text
  rows : List (List Cell)

/-- The entries of a `ColumnMapping`: target columns, each with its source header or `null`. -/
abbrev ColumnMapping := List (Text × Option Text)

/-- A `{column: value}` map as its entries. -/
abbrev Values := List (Text × Cell)

def buildRowValues (mapping : ColumnMapping) (sourceHeaders : List Text) (row : List Cell) : Values :=
  mapping.filterMap fun (target, source) ↦ source.map fun source ↦
    (target, (sourceHeaders.idxOf? source).elim none fun idx ↦ row[idx]?.join)

inductive ErrorPolicy
  | skip
  | abort
  deriving DecidableEq, Repr

structure ImportError where
  row : ℕ
  message : Text
  deriving DecidableEq, Repr

structure ImportSummary where
  inserted : ℕ
  errors : List ImportError
  aborted : Bool
  deriving DecidableEq, Repr

/-- The functions of `ImportOps`. -/
inductive ImportCall
  | begin
  | commit
  | rollback
  | insert (values : Values)
  deriving DecidableEq, Repr

/-- A call, and whether it resolved. -/
abbrev ImportEvent := ImportCall × Bool

/-- How each call settles: none for one that resolves, else the text of what it rejects with. The
signal is aborted from the row `abortedFrom` on. -/
structure ImportScript where
  begin : Option Text
  insert : ℕ → Option Text
  commit : Option Text
  rollback : Option Text
  abortedFrom : Option ℕ

/-- Why an import rejects: an operation did, or the signal was aborted. -/
inductive Rejection
  | failure (message : Text)
  | signal
  deriving DecidableEq, Repr

/-- `err.message`, or `String(err)`. -/
def Rejection.message : Rejection → Text
  | .failure message => message
  | .signal => []

abbrev ImportM := Async (List ImportEvent) Rejection

def issue (call : ImportCall) (rejects : Option Text) : ImportM Unit := do
  Async.step fun trace ↦ ((), trace ++ [(call, rejects.isNone)])
  Async.settled (rejects.elim (.ok ()) fun message ↦ .error (.failure message))

/-- `signal.aborted` when the row `i` comes up. -/
def ImportScript.aborted (script : ImportScript) (i : ℕ) : Bool :=
  script.abortedFrom.elim false fun k ↦ k ≤ i

section

variable (mapping : ColumnMapping) (headers : List Text) (policy : ErrorPolicy) (script : ImportScript)

/-- The loop of `runImport` from row `i` on, and the commit behind it. -/
def importRows (i inserted : ℕ) (errors : List ImportError) :
    List (List Cell) → ImportM ImportSummary
  | [] => do
    issue .commit script.commit
    return { inserted := inserted, errors := errors, aborted := false }
  | row :: rows =>
    if script.aborted i then do
      issue .rollback script.rollback
      throw .signal
    else do
      match ← (issue (.insert (buildRowValues mapping headers row)) (script.insert i)).attempt with
      | .ok () => importRows (i + 1) (inserted + 1) errors rows
      | .error err =>
        let errors := errors ++ [{ row := i, message := err.message }]
        if policy = .abort then do
          issue .rollback script.rollback
          return { inserted := 0, errors := errors, aborted := true }
        else importRows (i + 1) inserted errors rows

end

def runImport (parsed : ParsedTable) (mapping : ColumnMapping) (policy : ErrorPolicy)
    (script : ImportScript) : ImportM ImportSummary := do
  issue .begin script.begin
  importRows mapping parsed.headers policy script 0 0 [] parsed.rows

/-! ## What the database keeps -/

/-- The rows inserted in the open transaction, and those committed. -/
structure Kept where
  pending : ℕ
  committed : ℕ

def Kept.after (kept : Kept) : ImportEvent → Kept
  | (.begin, true) => { kept with pending := 0 }
  | (.insert _, true) => { kept with pending := kept.pending + 1 }
  | (.commit, true) => ⟨0, kept.committed + kept.pending⟩
  | (.rollback, true) => { kept with pending := 0 }
  | (_, false) => kept

def keptBy (trace : List ImportEvent) : Kept := trace.foldl Kept.after ⟨0, 0⟩

def IsInsert (e : ImportEvent) : Prop := ∃ values, e.1 = .insert values

/-- A rollback was called behind the last insert. -/
def RollsBack (trace : List ImportEvent) : Prop :=
  ∃ before resolved after, trace = before ++ (.rollback, resolved) :: after ∧
    ∀ e ∈ after, ¬ IsInsert e

/-- What is asked of a settled import of `n` rows. -/
structure Disciplined (n : ℕ) (settled : Except Rejection ImportSummary × List ImportEvent) :
    Prop where
  ended : (.begin, true) ∈ settled.2 → (.commit, true) ∈ settled.2 ∨ RollsBack settled.2
  notBoth : ¬ ((.commit, true) ∈ settled.2 ∧ ∃ resolved, (.rollback, resolved) ∈ settled.2)
  aborted : ∀ summary, settled.1 = .ok summary → summary.aborted = true →
    (keptBy settled.2).committed = 0
  signal : settled.1 = .error .signal → (keptBy settled.2).committed = 0
  counts : ∀ summary, settled.1 = .ok summary → summary.aborted = false →
    summary.inserted + summary.errors.length = n ∧
      summary.inserted = (keptBy settled.2).committed

/-- The commit is reached from row `i` on, with `count` rows to go, and rejects. -/
def LosesFrom (policy : ErrorPolicy) (script : ImportScript) (i count : ℕ) : Prop :=
  script.commit ≠ none ∧ ∀ j, i ≤ j → j < i + count →
    script.aborted j = false ∧ (policy = .abort → script.insert j = none)

/-- A transaction was begun, every row came to its turn, and the commit rejects. -/
def LosesCommit (policy : ErrorPolicy) (script : ImportScript) (n : ℕ) : Prop :=
  script.begin = none ∧ LosesFrom policy script 0 n

/-! ## The transaction while rows come in -/

/-- The transaction is open, with `inserted` rows in it. -/
structure InTx (inserted : ℕ) (trace : List ImportEvent) : Prop where
  begun : (.begin, true) ∈ trace
  noCommit : ∀ resolved, (.commit, resolved) ∉ trace
  noRollback : ∀ resolved, (.rollback, resolved) ∉ trace
  kept : keptBy trace = ⟨inserted, 0⟩

section Loop

variable {n i inserted : ℕ} {errors : List ImportError} {trace : List ImportEvent} {e : ImportEvent}
  {mapping : ColumnMapping} {headers : List Text} {policy : ErrorPolicy} {script : ImportScript}

theorem keptBy_concat : keptBy (trace ++ [e]) = (keptBy trace).after e := by
  rw [keptBy, List.foldl_append]
  rfl

theorem rollsBack_concat (resolved : Bool) : RollsBack (trace ++ [(.rollback, resolved)]) :=
  ⟨trace, resolved, [], rfl, by simp⟩

theorem issue_settles {call : ImportCall} {rejects : Option Text} {P : List ImportEvent → Prop} :
    Settles P (issue call rejects)
      (fun _ trace ↦ rejects = none ∧ ∃ before, P before ∧ trace = before ++ [(call, true)])
      fun e trace ↦ ∃ message, rejects = some message ∧ e = .failure message ∧
        ∃ before, P before ∧ trace = before ++ [(call, false)] := by
  cases rejects with
  | none => exact ⟨fun trace htrace ↦ ⟨rfl, trace, htrace, rfl⟩⟩
  | some message => exact ⟨fun trace htrace ↦ ⟨message, rfl, rfl, trace, htrace, rfl⟩⟩

theorem InTx.insert (h : InTx inserted trace) {values : Values} (resolved : Bool) :
    InTx (if resolved then inserted + 1 else inserted) (trace ++ [(.insert values, resolved)]) where
  begun := List.mem_append_left _ h.begun
  noCommit := by simpa using h.noCommit
  noRollback := by simpa using h.noRollback
  kept := by
    rw [keptBy_concat, h.kept]
    cases resolved <;> rfl

/-- The transaction ends with a rollback, called once. -/
theorem InTx.rolledBack (h : InTx inserted trace) (resolved : Bool)
    {result : Except Rejection ImportSummary}
    (hresult : ∀ summary, result = .ok summary → summary.aborted = true) :
    Disciplined n (result, trace ++ [(.rollback, resolved)]) := by
  have hcommitted : (keptBy (trace ++ [(.rollback, resolved)])).committed = 0 := by
    rw [keptBy_concat, h.kept]
    cases resolved <;> rfl
  exact
    { ended := fun _ ↦ .inr (rollsBack_concat resolved)
      notBoth := by
        rintro ⟨hcommit, -⟩
        simp [h.noCommit] at hcommit
      aborted := fun _ _ _ ↦ hcommitted
      signal := fun _ ↦ hcommitted
      counts := fun summary hok haborted ↦ by
        rw [hresult summary hok] at haborted
        cases haborted }

/-- The transaction ends with a commit that resolves. -/
theorem InTx.committed (h : InTx inserted trace) (hcount : inserted + errors.length = n) :
    Disciplined n (.ok ⟨inserted, errors, false⟩, trace ++ [(.commit, true)]) := by
  have hcommitted : (keptBy (trace ++ [(.commit, true)])).committed = inserted := by
    rw [keptBy_concat, h.kept]
    exact Nat.zero_add inserted
  exact
    { ended := fun _ ↦ .inl (by simp)
      notBoth := by
        rintro ⟨-, resolved, hrollback⟩
        simp [h.noRollback] at hrollback
      aborted := fun summary hok haborted ↦ by
        cases hok
        cases haborted
      signal := fun herror ↦ by cases herror
      counts := fun summary hok _ ↦ by
        cases hok
        exact ⟨hcount, hcommitted.symm⟩ }

/-- Where the commit is not lost, every way out is a disciplined one. -/
theorem importRows_disciplined (mapping : ColumnMapping) (headers : List Text)
    (errors : List ImportError) {rows : List (List Cell)}
    (hlost : ¬ LosesFrom policy script i rows.length) (hdone : inserted + errors.length = i)
    (hn : i + rows.length = n) :
    Settles (InTx inserted) (importRows mapping headers policy script i inserted errors rows)
      (fun summary trace ↦ Disciplined n (.ok summary, trace))
      fun e trace ↦ Disciplined n (.error e, trace) := by
  induction rows generalizing i inserted errors with
  | nil =>
    have hcommit : script.commit = none := by
      by_contra hrejects
      exact hlost ⟨hrejects, fun j hle hlt ↦ absurd hlt (by simpa using hle)⟩
    rw [importRows]
    refine Settles.bind (issue_settles.conseq (fun _ h ↦ h) (fun _ _ h ↦ h) fun e trace h ↦ ?_)
      fun _ ↦ .pure fun trace h ↦ ?_
    · obtain ⟨message, hrejects, -⟩ := h
      cases hcommit.symm.trans hrejects
    · obtain ⟨-, before, hbefore, rfl⟩ := h
      exact hbefore.committed (hdone.trans hn)
  | cons row rows ih =>
    have hrest (haborted : script.aborted i = false)
        (hinsert : policy = .abort → script.insert i = none) :
        ¬ LosesFrom policy script (i + 1) rows.length := by
      rintro ⟨hcommit, hrows⟩
      refine hlost ⟨hcommit, fun j hle hlt ↦ ?_⟩
      rcases Nat.eq_or_lt_of_le hle with rfl | hlt'
      · exact ⟨haborted, hinsert⟩
      · refine hrows j hlt' ?_
        rw [List.length_cons] at hlt
        omega
    have hlength : i + 1 + rows.length = n := by
      rw [List.length_cons] at hn
      omega
    rw [importRows]
    apply Settles.ite
    · intro haborted
      refine Settles.bind (issue_settles.conseq (fun _ h ↦ h) (fun _ _ h ↦ h) fun e trace h ↦ ?_)
        fun _ ↦ .throw fun trace h ↦ ?_
      · obtain ⟨message, -, -, before, hbefore, rfl⟩ := h
        exact hbefore.rolledBack false fun summary hok ↦ by cases hok
      · obtain ⟨-, before, hbefore, rfl⟩ := h
        exact hbefore.rolledBack true fun summary hok ↦ by cases hok
    intro hgoesOn
    have haborted : script.aborted i = false := Bool.eq_false_iff.2 hgoesOn
    apply Settles.bind (Settles.attempt issue_settles)
    intro outcome
    cases outcome with
    | ok u =>
      refine ⟨fun trace h ↦ ?_⟩
      obtain ⟨hinsert, before, hbefore, rfl⟩ := h
      exact (ih _ (hrest haborted fun _ ↦ hinsert) (by omega) hlength).run _ (hbefore.insert true)
    | error e =>
      apply Settles.ite
      · intro habort
        refine Settles.bind (issue_settles.conseq (fun _ h ↦ h) (fun _ _ h ↦ h) fun e trace h ↦ ?_)
          fun _ ↦ .pure fun trace h ↦ ?_
        · obtain ⟨-, -, -, -, ⟨-, -, -, before, hbefore, rfl⟩, rfl⟩ := h
          exact (hbefore.insert false).rolledBack false fun summary hok ↦ by cases hok
        · obtain ⟨-, -, ⟨-, -, -, before, hbefore, rfl⟩, rfl⟩ := h
          exact (hbefore.insert false).rolledBack true fun summary hok ↦ by
            cases hok
            rfl
      · intro hskip
        refine ⟨fun trace h ↦ ?_⟩
        obtain ⟨-, -, -, before, hbefore, rfl⟩ := h
        refine (ih _ (hrest haborted fun habort ↦ absurd habort hskip) ?_ hlength).run _
          (hbefore.insert false)
        rw [List.length_append, List.length_singleton]
        omega

/-- Where the commit is lost, the transaction is neither committed nor rolled back. -/
theorem importRows_lost (mapping : ColumnMapping) (headers : List Text) (errors : List ImportError)
    {rows : List (List Cell)} (hlost : LosesFrom policy script i rows.length) :
    Settles (InTx inserted) (importRows mapping headers policy script i inserted errors rows)
      (fun _ _ ↦ False)
      fun _ trace ↦ ∃ before inserted, InTx inserted before ∧ trace = before ++ [(.commit, false)] := by
  induction rows generalizing i inserted errors with
  | nil =>
    rw [importRows]
    refine Settles.bind (issue_settles.conseq (fun _ h ↦ h) (fun _ _ h ↦ h) fun e trace h ↦ ?_)
      fun _ ↦ .pure fun trace h ↦ absurd h.1 hlost.1
    obtain ⟨-, -, -, before, hbefore, rfl⟩ := h
    exact ⟨before, inserted, hbefore, rfl⟩
  | cons row rows ih =>
    obtain ⟨haborted, hinsert⟩ := hlost.2 i le_rfl (by simp)
    have hrest : LosesFrom policy script (i + 1) rows.length := by
      refine ⟨hlost.1, fun j hle hlt ↦ hlost.2 j (by omega) ?_⟩
      rw [List.length_cons]
      omega
    rw [importRows, if_neg (Bool.eq_false_iff.1 haborted)]
    apply Settles.bind (Settles.attempt issue_settles)
    intro outcome
    cases outcome with
    | ok u =>
      refine ⟨fun trace h ↦ ?_⟩
      obtain ⟨-, before, hbefore, rfl⟩ := h
      exact (ih _ hrest).run _ (hbefore.insert true)
    | error e =>
      refine ⟨fun trace h ↦ ?_⟩
      obtain ⟨message, hrejects, -, before, hbefore, rfl⟩ := h
      have hskip : policy ≠ .abort := fun habort ↦ by cases (hinsert habort).symm.trans hrejects
      simp only [if_neg hskip]
      exact (ih _ hrest).run _ (hbefore.insert false)

end Loop

/-! ## The whole import -/

theorem not_disciplined_of_lost {n inserted : ℕ} {result : Except Rejection ImportSummary}
    {before : List ImportEvent} (h : InTx inserted before) :
    ¬ Disciplined n (result, before ++ [(.commit, false)]) := by
  intro hdisciplined
  rcases hdisciplined.ended (List.mem_append_left _ h.begun) with hcommit | hrollback
  · simp [h.noCommit] at hcommit
  · obtain ⟨first, resolved, after, htrace, -⟩ := hrollback
    have hmem : (ImportCall.rollback, resolved) ∈ first ++ (.rollback, resolved) :: after := by simp
    rw [← htrace] at hmem
    simp [h.noRollback] at hmem

/-- A begin that rejects leaves nothing to settle. -/
theorem disciplined_of_notBegun {n : ℕ} {message : Text} :
    Disciplined n (.error (.failure message), [(.begin, false)]) where
  ended h := by simp at h
  notBoth h := by simp at h
  aborted summary hok := by cases hok
  signal h := by cases h
  counts summary hok := by cases hok

/-- An import ends its transaction, and counts what it committed, exactly where its commit does not
reject. -/
theorem runImport_disciplined_iff (parsed : ParsedTable) (mapping : ColumnMapping)
    (policy : ErrorPolicy) (script : ImportScript) :
    Disciplined parsed.rows.length ((runImport parsed mapping policy script).settle []) ↔
      ¬ LosesCommit policy script parsed.rows.length := by
  have hrun : (runImport parsed mapping policy script).settle [] =
      script.begin.elim
        ((importRows mapping parsed.headers policy script 0 0 [] parsed.rows).settle [(.begin, true)])
        fun message ↦ (.error (.failure message), [(.begin, false)]) := by
    rw [runImport, issue]
    cases script.begin <;> rfl
  rw [hrun]
  cases hbegin : script.begin with
  | some message =>
    refine iff_of_true disciplined_of_notBegun fun hlost ↦ ?_
    cases hbegin.symm.trans hlost.1
  | none =>
    have hbegun : InTx 0 [(.begin, true)] := ⟨by simp, by simp, by simp, rfl⟩
    rw [Option.elim_none]
    generalize hsettled : Async.settle _ _ = settled
    constructor
    · rintro hdisciplined ⟨-, hlost⟩
      have hend := (importRows_lost mapping parsed.headers [] hlost).run _ hbegun
      rw [hsettled] at hend
      rcases settled with ⟨e | summary, trace⟩
      · obtain ⟨before, inserted, hbefore, rfl⟩ := hend
        exact not_disciplined_of_lost hbefore hdisciplined
      · exact hend
    · intro hkept
      have hlost : ¬ LosesFrom policy script 0 parsed.rows.length := fun hlost ↦
        hkept ⟨hbegin, hlost⟩
      have hend := (importRows_disciplined mapping parsed.headers [] hlost rfl (Nat.zero_add _)).run _ hbegun
      rw [hsettled] at hend
      rcases settled with ⟨e | summary, trace⟩
      · exact hend
      · exact hend

/-- One row, and all is well but the commit. -/
theorem not_disciplined_commit :
    ¬ Disciplined 1 ((runImport ⟨["a".toList], [[some "1".toList]]⟩
      [("a".toList, some "a".toList)] .skip
      ⟨none, fun _ ↦ none, some "connection lost".toList, none, none⟩).settle []) := by
  intro hdisciplined
  have hended := hdisciplined.ended (.head _)
  rcases hended with hcommit | ⟨before, resolved, after, htrace, -⟩
  · exact absurd hcommit (by decide)
  · have hmem : (ImportCall.rollback, resolved) ∈ before ++ (.rollback, resolved) :: after := by simp
    rw [← htrace] at hmem
    revert hmem
    cases resolved <;> decide

end Squaero.Front
