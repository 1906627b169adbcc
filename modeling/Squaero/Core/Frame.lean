import Squaero.Core.Paging

/-!
# What a query leaves alone

A page moves on only the result it is read from, and a query only the result it starts. The manager
and the executions of all other results stay as they are.
-/

namespace Squaero.Core

open Squaero.Lib

variable {σ : Type} {env : Env σ} {record : σ → ResultId → Option Execution}
  {r : ResultId} {driver : Text}

/-! ## Reading a result moves no other -/

section Read

variable {P : World σ → Prop}

/-- `P` is kept by every call that moves no result but `r`. -/
def KeptBy (env : Env σ) (driver : Text) (r : ResultId) (P : World σ → Prop) : Prop :=
  ∀ {α : Type} (call : Call α), (∀ c, call.moves = some c → c = r) →
    Triple P (perform env driver call) fun _ ↦ P

/-- The connection a call ends. -/
def Call.closes : {α : Type} → Call α → Option Handle
  | _, .disconnect handle => some handle
  | _, _ => none

/-- `P` is kept by every call that moves no result but `r` and ends no connection. -/
def KeptByReads (env : Env σ) (driver : Text) (r : ResultId) (P : World σ → Prop) : Prop :=
  ∀ {α : Type} (call : Call α), (∀ c, call.moves = some c → c = r) → call.closes = none →
    Triple P (perform env driver call) fun _ ↦ P

theorem keptByReads (hP : KeptBy env driver r P) : KeptByReads env driver r P :=
  fun call hmoves _ ↦ hP call hmoves

theorem readColumns_frame (hP : KeptByReads env driver r P) {col count : ℕ} :
    Triple P (readColumns env driver r col count) fun _ ↦ P := by
  induction count generalizing col with
  | zero => exact .pure fun w hw ↦ hw
  | succ count ih =>
    apply Triple.bind (hP _ (by simp [Call.moves]) rfl)
    intro name
    apply Triple.bind (hP _ (by simp [Call.moves]) rfl)
    intro type
    apply Triple.bind ih
    intro columns
    exact .pure fun w hw ↦ hw

theorem readCells_frame (hP : KeptByReads env driver r P) {col count : ℕ} :
    Triple P (readCells env driver r col count) fun _ ↦ P := by
  induction count generalizing col with
  | zero => exact .pure fun w hw ↦ hw
  | succ count ih =>
    apply Triple.bind (hP _ (by simp [Call.moves]) rfl)
    intro cell
    apply Triple.bind ih
    intro cells
    exact .pure fun w hw ↦ hw

theorem fetchRows_frame (hP : KeptByReads env driver r P) {maxRows fuel toSkip : ℕ} {keepOpen : Bool}
    {res : Result} :
    Triple P (fetchRows env driver r maxRows keepOpen fuel toSkip res) fun _ ↦ P := by
  induction fuel generalizing toSkip res with
  | zero => exact .pure fun w hw ↦ hw
  | succ fuel ih =>
    apply Triple.ite
    · intro hfull
      exact .pure fun w hw ↦ hw
    intro hroom
    apply Triple.bind (hP _ (by simp [Call.moves]) rfl)
    intro rc
    apply Triple.ite
    · intro hend
      exact .pure fun w hw ↦ hw
    intro hrow
    apply Triple.ite
    · intro hskip
      exact ih
    intro htake
    apply Triple.ite
    · intro hpeek
      exact .pure fun w hw ↦ hw
    intro hfits
    apply Triple.bind (readCells_frame hP)
    intro cells
    cases addRow res cells with
    | none => exact .pure fun w hw ↦ hw
    | some res => exact ih

theorem materialize_frame (hP : KeptByReads env driver r P) {handle : Handle} {maxRows offset : ℕ}
    {keepOpen : Bool} :
    Triple P (materialize env driver handle r maxRows offset keepOpen) fun _ ↦ P := by
  apply Triple.bind (hP _ (by simp [Call.moves]) rfl)
  intro colCount
  apply Triple.bind (readColumns_frame hP)
  intro columns
  apply Triple.bind (hP _ (by simp [Call.moves]) rfl)
  intro rowsAffected
  apply Triple.bind (Q := fun _ ↦ P)
  · exact .ite (fun _ ↦ .pure fun w hw ↦ hw) fun _ ↦ fetchRows_frame hP
  intro fetched
  cases fetched with
  | none =>
    apply Triple.bind (hP _ (by simp [Call.moves]) rfl)
    intro _
    exact .pure fun w hw ↦ hw
  | some fetched =>
    apply Triple.ite
    · intro hfailed
      apply Triple.bind (hP _ (by simp [Call.moves]) rfl)
      intro msg
      apply Triple.bind (hP _ (by simp [Call.moves]) rfl)
      intro _
      exact .pure fun w hw ↦ hw
    intro hok
    apply Triple.ite
    · intro hclosed
      apply Triple.bind (hP _ (by simp [Call.moves]) rfl)
      intro _
      exact .pure fun w hw ↦ hw
    · intro hopen
      exact .pure fun w hw ↦ hw

end Read

/-! ## Queries end no connection -/

section Queries

variable {P : World σ → Prop} {handle : Handle} {sql : Text} {maxRows offset : ℕ}

/-- `P` is kept by offers and by every call that ends no connection. -/
structure KeptByQueries (env : Env σ) (driver : Text) (P : World σ → Prop) : Prop where
  perform : ∀ {α : Type} (call : Call α), call.closes = none →
    Triple P (perform env driver call) fun _ ↦ P
  offer : Triple P offer fun _ ↦ P

theorem KeptByQueries.reads (hP : KeptByQueries env driver P) : KeptByReads env driver r P :=
  fun call _ hcloses ↦ hP.perform call hcloses

theorem openResult_frame (hP : KeptByQueries env driver P) :
    Triple P (openResult env driver handle sql) fun _ ↦ P := by
  apply Triple.bind hP.offer
  intro r
  apply Triple.bind (hP.perform _ rfl)
  rintro ⟨st, given⟩
  apply Triple.ite
  · intro hfailed
    apply Triple.bind (hP.perform _ rfl)
    intro msg
    apply Triple.ite
    · intro hgiven
      exact Triple.thenReturn (hP.perform _ rfl)
    · intro hnone
      exact .pure fun w hw ↦ hw
  intro hok
  apply Triple.ite
  · intro hnone
    exact .pure fun w hw ↦ hw
  · intro hgiven
    exact .pure fun w hw ↦ hw

theorem queryRun_frame (hP : KeptByQueries env driver P) :
    Triple P (queryRun env driver handle sql maxRows offset) fun _ ↦ P := by
  apply Triple.bind (openResult_frame hP)
  intro opened
  cases opened with
  | error failure => exact .pure fun w hw ↦ hw
  | ok r => exact materialize_frame hP.reads

theorem queryOpen_frame (hP : KeptByQueries env driver P) :
    Triple P (queryOpen env driver handle sql maxRows) fun _ ↦ P := by
  apply Triple.bind (openResult_frame hP)
  intro opened
  cases opened with
  | error failure => exact .pure fun w hw ↦ hw
  | ok r =>
    apply Triple.bind (materialize_frame hP.reads)
    intro page
    cases page with
    | error failure => exact .pure fun w hw ↦ hw
    | ok res => exact .pure fun w hw ↦ hw

theorem queryNext_frame (hP : KeptByQueries env driver P) :
    Triple P (queryNext env driver handle r maxRows) fun _ ↦ P := by
  apply Triple.bind (materialize_frame hP.reads)
  intro page
  cases page with
  | error failure => exact .pure fun w hw ↦ hw
  | ok res => exact .pure fun w hw ↦ hw

end Queries

/-! ## What no call moves -/

section All

variable {P : World σ → Prop}

/-- `P` is kept by every step a program of the core is made of. -/
structure KeptByAll (env : Env σ) (P : World σ → Prop) : Prop where
  perform : ∀ {α : Type} (driver : Text) (call : Call α),
    Triple P (perform env driver call) fun _ ↦ P
  tunnel : ∀ dsn, Triple P (openTunnel env dsn) fun _ ↦ P
  offer : Triple P offer fun _ ↦ P
  manager : ∀ mgr, Triple P (setManager mgr) fun _ ↦ P

theorem getManager_frame : Triple P getManager fun _ ↦ P := ⟨fun _ hw ↦ hw⟩

variable (hP : KeptByAll env P)

include hP

theorem freeOther_frame {cursor old : Option ResultId} :
    Triple P (freeOther env driver cursor old) fun _ ↦ P := by
  cases old with
  | none => exact .pure fun w hw ↦ hw
  | some r => exact .ite (fun _ ↦ hP.perform _ _) fun _ ↦ .pure fun w hw ↦ hw

theorem releaseSlot_frame {i : ℕ} {s : Slot} : Triple P (releaseSlot env i s) fun _ ↦ P := by
  apply Triple.bind (freeOther_frame hP)
  intro _
  apply Triple.bind getManager_frame
  intro mgr
  apply Triple.bind (hP.manager _)
  intro _
  apply Triple.bind (hP.perform _ _)
  intro _
  apply Triple.bind getManager_frame
  intro mgr
  exact hP.manager _

theorem releaseAll_frame {i : ℕ} {slots : List (Option Slot)} :
    Triple P (releaseAll env i slots) fun _ ↦ P := by
  induction slots generalizing i with
  | nil => exact .pure fun w hw ↦ hw
  | cons slot slots ih =>
    cases slot with
    | none => exact ih
    | some s => exact Triple.bind (releaseSlot_frame hP) fun _ ↦ ih

theorem connManagerFree_frame : Triple P (connManagerFree env) fun _ ↦ P := by
  apply Triple.bind getManager_frame
  intro mgr
  apply Triple.bind (releaseAll_frame hP)
  intro _
  exact hP.manager _

theorem connManagerOpen_frame {dsn : Text} :
    Triple P (connManagerOpen env driver dsn) fun _ ↦ P := by
  apply Triple.bind (hP.tunnel dsn)
  intro tunnel
  cases tunnel with
  | error failure => exact .pure fun w hw ↦ hw
  | ok effectiveDsn =>
    apply Triple.bind hP.offer
    intro handle
    apply Triple.bind (hP.perform _ _)
    rintro ⟨st, given⟩
    apply Triple.ite
    · intro hfailed
      apply Triple.ite
      · intro hgiven
        apply Triple.bind (hP.perform _ _)
        intro msg
        exact Triple.thenReturn (hP.perform _ _)
      · intro hnone
        exact .pure fun w hw ↦ hw
    intro hok
    apply Triple.ite
    · intro hnone
      exact .pure fun w hw ↦ hw
    · intro hgiven
      apply Triple.bind getManager_frame
      intro mgr
      exact Triple.thenReturn (hP.manager _)

theorem connManagerClose_frame {id : ℕ} : Triple P (connManagerClose env id) fun _ ↦ P := by
  apply Triple.bind getManager_frame
  intro mgr
  cases mgr.findSlot id with
  | none => exact .pure fun w hw ↦ hw
  | some found => exact Triple.thenReturn (releaseSlot_frame hP)

theorem setInTx_frame {id : ℕ} {isOpen : Bool} : Triple P (setInTx id isOpen) fun _ ↦ P := by
  apply Triple.bind getManager_frame
  intro mgr
  cases mgr.findSlot id with
  | none => exact .pure fun w hw ↦ hw
  | some found => exact Triple.thenReturn (hP.manager _)

theorem setCursor_frame {id : ℕ} {cursor : Option ResultId} :
    Triple P (setCursor env id cursor) fun _ ↦ P := by
  apply Triple.bind getManager_frame
  intro mgr
  cases mgr.findSlot id with
  | none => exact .pure fun w hw ↦ hw
  | some found =>
    apply Triple.bind (freeOther_frame hP)
    intro _
    apply Triple.bind getManager_frame
    intro mgr
    exact Triple.thenReturn (hP.manager _)

theorem takeCursor_frame {id : ℕ} : Triple P (takeCursor id) fun _ ↦ P := by
  apply Triple.bind getManager_frame
  intro mgr
  cases mgr.findSlot id with
  | none => exact .pure fun w hw ↦ hw
  | some found => exact Triple.thenReturn (hP.manager _)

end All

/-! ## The manager and the older results -/

/-- The manager is `mgr`, and the results offered before `n` stand where `old` says. -/
structure Kept (record : σ → ResultId → Option Execution) (mgr : Manager) (n : ℕ)
    (old : ResultId → Option Execution) (w : World σ) : Prop where
  manager : w.manager = mgr
  fresh : n ≤ w.fresh
  record : ∀ c < n, record w.drivers c = old c

variable {mgr : Manager} {n : ℕ} {old : ResultId → Option Execution}

theorem perform_kept (hc : Contract env record) {α : Type} {call : Call α}
    (hcall : ∀ c, call.moves = some c → n ≤ c) :
    Triple (Kept record mgr n old) (perform env driver call) fun _ ↦ Kept record mgr n old := by
  refine ⟨fun w hw ↦ ⟨hw.manager, hw.fresh, fun c hlt ↦ ?_⟩⟩
  refine (hc.frame driver call w.drivers c fun hmoves ↦ ?_).trans (hw.record c hlt)
  exact absurd (hcall c hmoves) (not_le.2 hlt)

theorem kept_keptBy (hc : Contract env record) (hr : n ≤ r) :
    KeptBy env driver r (Kept record mgr n old) := by
  intro α call hcall
  apply perform_kept hc
  rintro c hmoves
  rw [hcall c hmoves]
  exact hr

/-- A statement is run for a result of its own. -/
theorem openResult_kept (hc : Contract env record) {handle : Handle} {sql : Text} :
    Triple (Kept record mgr n old) (openResult env driver handle sql)
      fun opened w ↦ Kept record mgr n old w ∧ ∀ r, opened = .ok r → n ≤ r := by
  apply Triple.bind (Q := fun r w ↦ n ≤ r ∧ Kept record mgr n old w)
  · exact ⟨fun w hw ↦ ⟨hw.fresh, hw.manager, hw.fresh.trans (Nat.le_succ _), hw.record⟩⟩
  intro r
  apply Triple.of_imp
  intro hr
  apply Triple.bind (perform_kept hc fun c hmoves ↦ by
    cases hmoves
    exact hr)
  rintro ⟨st, given⟩
  apply Triple.ite
  · intro hfailed
    apply Triple.bind (perform_kept hc (by simp [Call.moves]))
    intro msg
    apply Triple.ite
    · intro hgiven
      apply Triple.bind (perform_kept hc (by simp [Call.moves]))
      intro _
      exact .pure fun w hw ↦ ⟨hw, by simp⟩
    · intro hnone
      exact .pure fun w hw ↦ ⟨hw, by simp⟩
  intro hok
  apply Triple.ite
  · intro hnone
    exact .pure fun w hw ↦ ⟨hw, by simp⟩
  · intro hgiven
    refine .pure fun w hw ↦ ⟨hw, fun c heq ↦ ?_⟩
    cases heq
    exact hr

theorem queryRun_kept (hc : Contract env record) {handle : Handle} {sql : Text}
    {maxRows offset : ℕ} :
    Triple (Kept record mgr n old) (queryRun env driver handle sql maxRows offset)
      fun _ ↦ Kept record mgr n old := by
  apply Triple.bind (openResult_kept hc)
  intro opened
  cases opened with
  | error failure => exact .pure fun w hw ↦ hw.1
  | ok r =>
    refine ⟨fun w hw ↦ ?_⟩
    exact (materialize_frame (keptByReads (kept_keptBy hc (hw.2 r rfl)))).run w hw.1

theorem queryOpen_kept (hc : Contract env record) {handle : Handle} {sql : Text} {maxRows : ℕ} :
    Triple (Kept record mgr n old) (queryOpen env driver handle sql maxRows)
      fun _ ↦ Kept record mgr n old := by
  apply Triple.bind (openResult_kept hc)
  intro opened
  cases opened with
  | error failure => exact .pure fun w hw ↦ hw.1
  | ok r =>
    apply Triple.bind (Q := fun _ ↦ Kept record mgr n old)
    · exact ⟨fun w hw ↦ (materialize_frame (keptByReads (kept_keptBy hc (hw.2 r rfl)))).run w hw.1⟩
    intro page
    cases page with
    | error failure => exact .pure fun w hw ↦ hw
    | ok res => exact .pure fun w hw ↦ hw

theorem queryNext_kept (hc : Contract env record) (hr : n ≤ r) {handle : Handle} {maxRows : ℕ} :
    Triple (Kept record mgr n old) (queryNext env driver handle r maxRows)
      fun _ ↦ Kept record mgr n old := by
  apply Triple.bind (materialize_frame (keptByReads (kept_keptBy hc hr)))
  intro page
  cases page with
  | error failure => exact .pure fun w hw ↦ hw
  | ok res => exact .pure fun w hw ↦ hw

/-- Nothing is older than the first result: this is what is known of the manager alone. -/
theorem kept_zero {w : World σ} (hw : w.manager = mgr) : Kept record mgr 0 (fun _ ↦ none) w :=
  ⟨hw, Nat.zero_le _, fun c hlt ↦ absurd hlt (Nat.not_lt_zero c)⟩

end Squaero.Core
