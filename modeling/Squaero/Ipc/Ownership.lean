import Squaero.Core.ManagerOwnership
import Squaero.Ipc.Methods

/-!
# Ownership over any run of requests

Every operation keeps the world consistent, so in every run each result a driver hands out is freed
once, last, and before its connection goes. A response says `cursor` exactly when the result it was
read from is the cursor of the connection.
-/

namespace Squaero.Ipc

open Squaero.Lib Squaero.Lib.Ledger Squaero.Core

variable {σ : Type} {env : Env σ}

/-- The answer is a page that says it has a cursor. -/
def CarriesCursor (answer : Answer) : Prop :=
  ∃ page, answer = .ok page ∧ field (some page) "cursor" = some (.bool true)

@[simp]
theorem carriesCursor_error {e : IpcError} : ¬ CarriesCursor (.error e) := by
  rintro ⟨page, hpage, -⟩
  cases hpage

@[simp]
theorem carriesCursor_page {res : Result} {isHeld : Bool} :
    CarriesCursor (.ok (ipcPageToJson res isHeld)) ↔ isHeld = true := by
  constructor
  · rintro ⟨page, hpage, hcursor⟩
    cases hpage
    by_contra hheld
    rw [field_cursor_page, if_neg hheld] at hcursor
    cases hcursor
  · rintro rfl
    exact ⟨_, rfl, field_cursor_page res true⟩

/-- After a call on the connection `id` that began behind `past`: the world is consistent, and the
answer carries a cursor exactly when the connection holds the result the call read. -/
def Answered (past : List Event) (id : ℕ) (answer : Answer) (w : World σ) : Prop :=
  Consistent w ∧ ∃ dr, Reads past dr w.history ∧
    (CarriesCursor answer ↔ ∃ r ∈ dr, w.manager.cursorOf id = some r)

section Handlers

variable {mgr : Manager} {i : ℕ} {s : Slot} {past : List Event} {driver : Text} {id : ℕ}

theorem answered_page {res : Result} {isHeld : Bool} {w : World σ}
    (hw : Settled past id isHeld w) : Answered past id (.ok (ipcPageToJson res isHeld)) w := by
  obtain ⟨hconsistent, dr, hreads, hheld⟩ := hw
  exact ⟨hconsistent, dr, hreads, carriesCursor_page.trans hheld⟩

theorem answered_error {e : IpcError} {w : World σ} (hw : Settled past id false w) :
    Answered past id (.error e) w := by
  obtain ⟨hconsistent, dr, hreads, hheld⟩ := hw
  refine ⟨hconsistent, dr, hreads, iff_of_false carriesCursor_error fun hdr ↦ ?_⟩
  cases hheld.2 hdr

theorem storeCursor_spec {cursor : Option ResultId} (hfind : mgr.findSlot id = some (i, s))
    (hcursor : s.cursor = none) :
    Triple (fun w ↦ ∃ dr, Working mgr s.handle past dr cursor w ∧ ∀ r ∈ cursor, r ∈ dr)
      (storeCursor env driver id cursor) (Settled past id) := by
  cases cursor with
  | none =>
    refine .pure fun w hw ↦ ?_
    obtain ⟨dr, hw, -⟩ := hw
    exact hw.settled
  | some r =>
    apply Triple.bind ((setCursor_some_spec hfind hcursor).pre ?_)
    · intro isHeld
      apply Triple.of_imp
      rintro rfl
      exact .pure fun w hw ↦ hw
    · rintro w ⟨dr, hw, hdr⟩
      exact ⟨dr, hw, hdr r rfl⟩

theorem runPlain_spec {p : QueryRunParams} (hslot : mgr.slots[i]? = some (some s)) :
    Triple (fun w ↦ Becoming mgr mgr w ∧ Reads past none w.history)
      (runPlain env driver s.handle p) (Answered past id) := by
  apply Triple.bind (queryRun_spec.pre fun w hw ↦ hw.1.working hw.2 hslot)
  intro page
  cases page with
  | error failure =>
    refine .pure fun w hw ↦ ?_
    obtain ⟨dr, hw⟩ := hw
    exact answered_error hw.settled
  | ok res =>
    refine .pure fun w hw ↦ ?_
    obtain ⟨dr, hw⟩ := hw
    exact answered_page hw.settled

theorem runCursor_spec {p : QueryRunParams} (hfind : mgr.findSlot p.id = some (i, s)) :
    Triple (fun w ↦ Becoming mgr mgr w ∧ Reads past none w.history)
      (runCursor env driver s.handle p) (Answered past p.id) := by
  obtain ⟨hslot, hid, hset⟩ := Manager.findSlot_eq_some hfind
  apply Triple.bind (setCursor_none_spec hfind)
  intro _
  apply Triple.bind queryOpen_spec
  intro page
  cases page with
  | error failure =>
    refine .pure fun w hw ↦ ?_
    obtain ⟨dr, hw, -⟩ := hw
    exact answered_error hw.settled
  | ok page =>
    apply Triple.bind (storeCursor_spec (hset { s with cursor := none } hid) rfl)
    intro isHeld
    exact .pure fun w hw ↦ answered_page hw

theorem nextPage_spec {p : QueryNextParams} (hfind : mgr.findSlot p.id = some (i, s)) :
    Triple (fun w ↦ Becoming mgr mgr w ∧ Reads past none w.history)
      (nextPage env driver s.handle p) (Answered past p.id) := by
  obtain ⟨hslot, hid, hset⟩ := Manager.findSlot_eq_some hfind
  apply Triple.bind ((takeCursor_spec hfind).post fun cursor w hw ↦ hw.2)
  intro cursor
  cases cursor with
  | none => exact .pure fun w hw ↦ answered_error hw.settled
  | some r =>
    apply Triple.bind queryNext_spec
    intro page
    cases page with
    | error failure => exact .pure fun w hw ↦ answered_error hw.settled
    | ok page =>
      apply Triple.bind ((storeCursor_spec (hset { s with cursor := none } hid) rfl).pre ?_)
      · intro isHeld
        exact .pure fun w hw ↦ answered_page hw
      · intro w hw
        refine ⟨some r, hw, fun t ht ↦ ?_⟩
        by_cases hopen : page.2 = true
        · rwa [if_pos hopen] at ht
        · rw [if_neg hopen] at ht
          cases ht

end Handlers

/-! ## Operations -/

/-- A query method keeps the world consistent, and its answer tells of the cursor it leaves. -/
def Told (past : List Core.Event) (params : Option Json) (answer : Answer) (w : World σ) : Prop :=
  Consistent w ∧ ∃ dr, Reads past dr w.history ∧
    (CarriesCursor answer ↔ ∃ id, ipcConnId params = .ok id ∧
      ∃ r ∈ dr, w.manager.cursorOf id = some r)

section Methods

variable {mgr : Manager} {past : List Core.Event} {params : Option Json} {id : ℕ}

theorem told_error {e : IpcError} {w : World σ}
    (hw : Becoming mgr mgr w ∧ Reads past none w.history) : Told past params (.error e) w := by
  refine ⟨hw.1.consistent, none, hw.2, iff_of_false carriesCursor_error ?_⟩
  rintro ⟨id, -, r, hr, -⟩
  cases hr

theorem told_of_answered {answer : Answer} {w : World σ} (hid : ipcConnId params = .ok id)
    (h : Answered past id answer w) : Told past params answer w := by
  obtain ⟨hconsistent, dr, hreads, hheld⟩ := h
  refine ⟨hconsistent, dr, hreads, hheld.trans ⟨fun hr ↦ ⟨id, hid, hr⟩, ?_⟩⟩
  rintro ⟨other, hother, hr⟩
  cases hid.symm.trans hother
  exact hr

theorem withConn_spec {f : Text → Handle → CoreM σ Answer} {P : World σ → Prop}
    {Q : Answer → World σ → Prop} (hP : ∀ w, P w → w.manager = mgr)
    (hnone : ∀ w, P w → Q (.error unknownConn) w)
    (hsome : ∀ i s, mgr.findSlot id = some (i, s) → Triple P (f s.driver s.handle) Q) :
    Triple P (withConn id f) Q := by
  apply Triple.bind (connManagerGet_spec hP)
  intro ref
  apply Triple.of_imp
  rintro rfl
  cases hfind : mgr.findSlot id with
  | none => exact .pure hnone
  | some found => exact hsome found.1 found.2 hfind

theorem ipcMethodQueryRun_spec :
    Triple (fun w ↦ Becoming mgr mgr w ∧ Reads past none w.history) (ipcMethodQueryRun env params)
      (Told past params) := by
  rw [ipcMethodQueryRun]
  cases hparams : queryRunParams params with
  | error e => exact .pure fun w hw ↦ told_error hw
  | ok p =>
    have hid := (queryRunParams_ok hparams).1
    apply withConn_spec (fun w hw ↦ hw.1.1) (fun w hw ↦ told_error hw)
    intro i s hfind
    apply Triple.ite
    · intro hkeep
      exact (runCursor_spec hfind).post fun answer w hw ↦ told_of_answered hid hw
    · intro hplain
      exact (runPlain_spec (Manager.findSlot_eq_some hfind).1).post fun answer w hw ↦
        told_of_answered hid hw

theorem ipcMethodQueryNext_spec :
    Triple (fun w ↦ Becoming mgr mgr w ∧ Reads past none w.history) (ipcMethodQueryNext env params)
      (Told past params) := by
  rw [ipcMethodQueryNext]
  cases hparams : queryNextParams params with
  | error e => exact .pure fun w hw ↦ told_error hw
  | ok p =>
    apply withConn_spec (fun w hw ↦ hw.1.1) (fun w hw ↦ told_error hw)
    intro i s hfind
    exact (nextPage_spec hfind).post fun answer w hw ↦
      told_of_answered (queryNextParams_ok hparams).1 hw

/-- What a triple says from one world on. -/
theorem told_from {m : CoreM σ Answer} {w : World σ}
    (hm : ∀ mgr past, Triple (fun w ↦ Becoming mgr mgr w ∧ Reads past none w.history) m
      (Told past params)) (hw : Consistent w) :
    Told w.history params (m.run w).1 (m.run w).2 :=
  (hm w.manager w.history).run w ⟨becoming_self hw, .refl _⟩

theorem consistent_of_told {m : CoreM σ Answer}
    (hm : ∀ mgr past, Triple (fun w ↦ Becoming mgr mgr w ∧ Reads past none w.history) m
      (Told past params)) : Triple Consistent m fun _ ↦ Consistent :=
  ⟨fun _ hw ↦ (told_from hm hw).1⟩

theorem ipcMethodQueryCursorClose_spec :
    Triple Consistent (ipcMethodQueryCursorClose env params) fun _ ↦ Consistent := by
  refine ⟨fun w hw ↦ ?_⟩
  have hclose : Triple (fun v ↦ Becoming w.manager w.manager v ∧ Reads w.history none v.history)
      (ipcMethodQueryCursorClose env params) fun _ ↦ Consistent := by
    rw [ipcMethodQueryCursorClose]
    cases hid : ipcConnId params with
    | error e => exact .pure fun w hw ↦ hw.1.consistent
    | ok id =>
      apply withConn_spec (fun w hw ↦ hw.1.1) (fun w hw ↦ hw.1.consistent)
      intro i s hfind
      apply Triple.bind ((takeCursor_spec hfind).post fun cursor w hw ↦ hw.2)
      intro cursor
      cases cursor with
      | none => exact .pure fun w hw ↦ hw.becoming.consistent
      | some r =>
        apply Triple.bind freeResult_spec
        intro _
        exact .pure fun w hw ↦ hw.becoming.consistent
  exact hclose.run w ⟨becoming_self hw, .refl _⟩

theorem ipcMethodConnOpen_spec :
    Triple Consistent (ipcMethodConnOpen env params) fun _ ↦ Consistent := by
  rw [ipcMethodConnOpen]
  split
  next driver hdriver =>
    split
    next => exact .pure fun w hw ↦ hw
    next dsn hdsn =>
      split
      next => exact .pure fun w hw ↦ hw
      next drv hdrv =>
        apply Triple.bind connManagerOpen_spec
        intro opened
        cases opened with
        | error failure => exact .pure fun w hw ↦ hw
        | ok id => exact .pure fun w hw ↦ hw
  next => exact .pure fun w hw ↦ hw

theorem ipcMethodConnClose_spec :
    Triple Consistent (ipcMethodConnClose env params) fun _ ↦ Consistent := by
  rw [ipcMethodConnClose]
  split
  next => exact .pure fun w hw ↦ hw
  next id hid =>
    apply Triple.bind connManagerClose_spec
    intro st
    apply Triple.ite
    · intro hfailed
      exact .pure fun w hw ↦ hw
    · intro hok
      exact .pure fun w hw ↦ hw

theorem runTx_spec {handle : Handle} {driver : Text} {op : TxOp} :
    Triple (Working mgr handle past none none) (runTx env driver handle op)
      fun _ ↦ Working mgr handle past none none := by
  apply Triple.ite
  · intro hsupported
    apply Triple.bind (perform_spec fun w hw answer drivers ↦ ?_)
    · intro st
      apply Triple.ite
      · intro hfailed
        apply Triple.bind lastError_spec
        intro msg
        exact .pure fun w hw ↦ hw
      · intro hok
        exact .pure fun w hw ↦ hw
    · cases op <;> exact hw.touch drivers
  · intro hunsupported
    exact .pure fun w hw ↦ hw

theorem noteTx_spec {op : TxOp} {st : Status} :
    Triple Consistent (noteTx id op st : CoreM σ Unit) fun _ ↦ Consistent := by
  apply Triple.ite
  · intro hended
    exact Triple.thenReturn setInTx_spec
  · intro hopen
    exact .pure fun w hw ↦ hw

theorem txDispatch_spec {op : TxOp} :
    Triple Consistent (txDispatch env op params) fun _ ↦ Consistent := by
  refine ⟨fun w hw ↦ ?_⟩
  have htx : Triple (fun v ↦ Becoming w.manager w.manager v ∧ Reads w.history none v.history)
      (txDispatch env op params) fun _ ↦ Consistent := by
    rw [txDispatch]
    cases hid : ipcConnId params with
    | error e => exact .pure fun w hw ↦ hw.1.consistent
    | ok id =>
      apply withConn_spec (fun w hw ↦ hw.1.1) (fun w hw ↦ hw.1.consistent)
      intro i s hfind
      apply Triple.bind (getManager_spec fun w hw ↦ hw.1.1)
      intro m
      apply Triple.of_imp
      rintro rfl
      apply Triple.ite
      · intro hinTx
        exact .pure fun w hw ↦ hw.1.consistent
      intro hfree
      apply Triple.bind (runTx_spec.pre fun w hw ↦
        hw.1.working hw.2 (Manager.findSlot_eq_some hfind).1)
      rintro ⟨st, msg⟩
      apply Triple.bind (noteTx_spec.pre fun w hw ↦ hw.becoming.consistent)
      intro _
      apply Triple.ite
      · intro hfailed
        exact .pure fun w hw ↦ hw
      · intro hok
        exact .pure fun w hw ↦ hw
  exact htx.run w ⟨becoming_self hw, .refl _⟩

/-! ## Runs -/

/-- What one operation preserves. -/
theorem handle_spec (op : Op) : Triple Consistent (op.handle env) fun _ ↦ Consistent := by
  cases op with
  | connOpen params => exact ipcMethodConnOpen_spec.map
  | connClose params => exact ipcMethodConnClose_spec.map
  | queryRun params => exact (consistent_of_told fun _ _ ↦ ipcMethodQueryRun_spec).map
  | queryNext params => exact (consistent_of_told fun _ _ ↦ ipcMethodQueryNext_spec).map
  | queryCursorClose params => exact ipcMethodQueryCursorClose_spec.map
  | tx op params => exact txDispatch_spec.map
  | connManagerFree =>
    apply Triple.thenReturn
    exact connManagerFree_spec.post fun _ w hw ↦ hw.1

/-- What a run of operations preserves. -/
theorem runOps_spec (ops : List Op) : Triple Consistent (runOps env ops) fun _ ↦ Consistent := by
  induction ops with
  | nil => exact .pure fun w hw ↦ hw
  | cons op ops ih =>
    apply Triple.bind (handle_spec op)
    intro answer
    apply Triple.bind ih
    intro answers
    exact .pure fun w hw ↦ hw

end Methods

theorem initialWorld_consistent (drivers : σ) : Consistent (initialWorld drivers) where
  holding := Holding.nil
  below :=
    { given := fun r hr ↦ by simp [initialWorld, Given, OwnedBy] at hr
      opened := fun h hh ↦ by simp [initialWorld] at hh }

theorem worldAfter_consistent (env : Env σ) (drivers : σ) (ops : List Op) :
    Consistent (worldAfter env drivers ops) :=
  (runOps_spec ops).run _ (initialWorld_consistent drivers)

/-- Who owns the results handed out until `w`, and what the next query says of the cursor. -/
structure CursorsOwned (env : Env σ) (w : World σ) : Prop where
  /-- Behind its release no driver function sees a result. -/
  silentAfterFree : ∀ after before r, w.history = after ++ .release r :: before →
    .use r ∉ after ∧ .release r ∉ after
  /-- A connection goes after each result it handed out. -/
  freedBeforeDisconnect : ∀ after before handle r,
    w.history = after ++ .dispose handle :: before → OwnedBy w.history handle r →
      .release r ∈ before
  /-- Each result was freed once, or a connection holds it, and just one. -/
  freedOrHeld : ∀ r, Given w.history r →
    w.history.count (.release r) + w.manager.cursors.count r = 1
  /-- When the manager is freed, every result was freed once. -/
  freedAtEnd : ∀ r, Given ((connManagerFree env).run w).2.history r →
    ((connManagerFree env).run w).2.history.count (.release r) = 1
  runTells : ∀ params, Told w.history params ((ipcMethodQueryRun env params).run w).1
    ((ipcMethodQueryRun env params).run w).2
  nextTells : ∀ params, Told w.history params ((ipcMethodQueryNext env params).run w).1
    ((ipcMethodQueryNext env params).run w).2

theorem cursorsOwned (env : Env σ) (drivers : σ) (ops : List Op) :
    CursorsOwned env (worldAfter env drivers ops) := by
  have hw : Consistent (worldAfter env drivers ops) := worldAfter_consistent env drivers ops
  generalize worldAfter env drivers ops = w at hw
  obtain ⟨hfreed, hnew⟩ := connManagerFree_spec.run (m := connManagerFree env) w hw
  have hempty : ((connManagerFree env).run w).2.manager.cursors = [] := by
    rw [hnew]
    rfl
  exact
    { silentAfterFree := fun after before r hsplit ↦
        not_mem_after_release (hsplit ▸ hw.holding.accepted)
      freedBeforeDisconnect := fun after before handle r hsplit howner ↦ by
        rw [hsplit] at howner
        exact release_mem_of_dispose (hsplit ▸ hw.holding.accepted) howner
      freedOrHeld := fun r hr ↦ hw.holding.count_release hr
      freedAtEnd := fun r hr ↦ by
        have hcount := hfreed.holding.count_release hr
        rwa [← Manager.cursors, hempty, List.count_nil, Nat.add_zero] at hcount
      runTells := fun params ↦ told_from (fun _ _ ↦ ipcMethodQueryRun_spec) hw
      nextTells := fun params ↦ told_from (fun _ _ ↦ ipcMethodQueryNext_spec) hw }

end Squaero.Ipc
