import Squaero.Core.QueryPages
import Squaero.Ipc.Ownership

/-!
# Pages over the wire

What `query.run` and `query.next` answer, in terms of the executions behind them: a cursor run gives
the first rows of an execution and each `query.next` the rows behind those, a plain run the rows
behind its offset. A plain run leaves the cursor of every connection where it is.
-/

namespace Squaero.Ipc

open Squaero.Lib Squaero.Lib.Ledger Squaero.Core

variable {σ : Type} {env : Env σ} {record : σ → ResultId → Option Execution}

/-! ## The cursor of a connection -/

/-- The cursor a slot has stands for `e`, or there is none. -/
def Stands (record : σ → ResultId → Option Execution) (w : World σ) (cursor : Option ResultId) :
    Option Execution → Prop
  | none => cursor = none
  | some e => ∃ r, cursor = some r ∧ Recorded record r e w

/-- The connection `id` of `driver` is open, and its cursor stands for `e`. -/
def CursorOn (record : σ → ResultId → Option Execution) (id : ℕ) (driver : Text)
    (e : Option Execution) (w : World σ) : Prop :=
  ∃ i s, w.manager.findSlot id = some (i, s) ∧ s.driver = driver ∧ Stands record w s.cursor e

section Cursor

variable {mgr : Manager} {id i : ℕ} {s : Slot} {P : σ → Prop} {driver : Text}

theorem setCursor_none_manager (hfind : mgr.findSlot id = some (i, s)) :
    Triple (fun w ↦ w.manager = mgr) (setCursor env id none)
      fun _ w ↦ w.manager = mgr.setSlot i (some { s with cursor := none }) := by
  apply Triple.bind (getManager_spec fun w hw ↦ hw)
  intro m
  apply Triple.of_imp
  rintro rfl
  rw [hfind]
  apply Triple.bind (Q := fun _ w ↦ w.manager = mgr)
  · cases s.cursor with
    | none => exact .pure fun w hw ↦ hw
    | some r =>
      rw [freeOther]
      exact .ite (fun _ ↦ ⟨fun w hw ↦ hw⟩) fun _ ↦ .pure fun w hw ↦ hw
  intro _
  apply Triple.bind (getManager_spec fun w hw ↦ hw)
  intro m
  apply Triple.of_imp
  rintro rfl
  apply Triple.thenReturn
  exact setManager_spec fun w hw ↦ rfl

theorem takeCursor_manager (hfind : mgr.findSlot id = some (i, s)) :
    Triple (fun w ↦ w.manager = mgr ∧ P w.drivers) (takeCursor id)
      fun cursor w ↦ cursor = s.cursor ∧
        w.manager = mgr.setSlot i (some { s with cursor := none }) ∧ P w.drivers := by
  apply Triple.bind (getManager_spec fun w hw ↦ hw.1)
  intro m
  apply Triple.of_imp
  rintro rfl
  rw [hfind]
  apply Triple.thenReturn
  exact setManager_spec fun w hw ↦ ⟨rfl, rfl, hw.2⟩

/-- A cursor goes to a connection that has none. -/
theorem storeCursor_manager (hfind : mgr.findSlot id = some (i, s)) (hcursor : s.cursor = none)
    (cursor : Option ResultId) :
    Triple (fun w ↦ w.manager = mgr ∧ P w.drivers) (storeCursor env driver id cursor)
      fun isHeld w ↦ isHeld = cursor.isSome ∧
        w.manager.findSlot id = some (i, { s with cursor := cursor }) ∧ P w.drivers := by
  obtain ⟨hslot, hid, hset⟩ := Manager.findSlot_eq_some hfind
  cases cursor with
  | none =>
    refine .pure fun w hw ↦ ⟨rfl, ?_, hw.2⟩
    rw [hw.1, hfind, ← hcursor]
  | some r =>
    apply Triple.bind (Q := fun isHeld w ↦ isHeld = true ∧
      w.manager.findSlot id = some (i, { s with cursor := some r }) ∧ P w.drivers)
    · apply Triple.bind (getManager_spec fun w hw ↦ hw.1)
      intro m
      apply Triple.of_imp
      rintro rfl
      rw [hfind]
      simp only [hcursor, freeOther, pure_bind]
      apply Triple.bind (getManager_spec fun w hw ↦ hw.1)
      intro m
      apply Triple.of_imp
      rintro rfl
      apply Triple.thenReturn
      exact setManager_spec fun w hw ↦ ⟨rfl, hset { s with cursor := some r } hid, hw.2⟩
    intro isHeld
    apply Triple.of_imp
    rintro rfl
    exact .pure fun w hw ↦ ⟨rfl, hw⟩

end Cursor

/-! ## Answers -/

/-- The answer is the next `maxRows` rows of `e`, and the cursor of the connection stands behind them
while the page was full. Only too large a page and a driver that fails give an error, and then the
connection has no cursor. -/
def CursorAnswer (env : Env σ) (record : σ → ResultId → Option Execution) (id : ℕ) (driver : Text)
    (e : Execution) (maxRows : ℕ) : Answer → World σ → Prop
  | .error _, w =>
    (maxPageRows < (e.window 0 maxRows).length ∨ ¬ NeverFails env record) ∧
      CursorOn record id driver none w
  | .ok page, w => ∃ res rowsAffected n,
    page = ipcPageToJson res res.truncated ∧
      PageOf e 0 maxRows true (emptyPage e rowsAffected) res ∧
      n = e.fetched + (e.window 0 maxRows).length ∧ (∃ r, Recorded record r (e.at n) w) ∧
      CursorOn record id driver (if res.truncated then some (e.at n) else none) w

/-- The answer is the rows of `e` behind `offset`, up to `maxRows` of them. -/
def PlainAnswer (env : Env σ) (record : σ → ResultId → Option Execution) (e : Execution)
    (offset maxRows : ℕ) : Answer → World σ → Prop
  | .error _, _ => maxPageRows < (e.window offset maxRows).length ∨ ¬ NeverFails env record
  | .ok page, w => ∃ res rowsAffected n r,
    page = ipcPageToJson res false ∧
      PageOf e offset maxRows false (emptyPage e rowsAffected) res ∧ Recorded record r (e.at n) w

section Answers

variable {id i : ℕ} {s : Slot} {driver : Text} {e : Execution} {mgr : Manager} {w : World σ}
  {r : ResultId} {maxRows : ℕ}

theorem cursorAnswer_error {failure : Status × Text} {err : IpcError}
    (hpages : Pages env record r e 0 maxRows true (.error failure) w)
    (hfind : w.manager.findSlot id = some (i, s)) (hdriver : s.driver = driver)
    (hcursor : s.cursor = none) : CursorAnswer env record id driver e maxRows (.error err) w :=
  ⟨hpages.imp_left And.left, i, s, hfind, hdriver, hcursor⟩

/-- The page goes out with the cursor where `materialize` left the result open. -/
theorem storeCursor_answer {res : Result} (hfind : mgr.findSlot id = some (i, s))
    (hdriver : s.driver = driver) (hcursor : s.cursor = none) :
    Triple (fun w ↦ w.manager = mgr ∧ Pages env record r e 0 maxRows true (.ok res) w)
      (storeCursor env driver id (if res.truncated then some r else none))
      fun isHeld w ↦ CursorAnswer env record id driver e maxRows (.ok (ipcPageToJson res isHeld)) w := by
  refine ((storeCursor_manager (P := fun drivers ↦
    (∃ rowsAffected, PageOf e 0 maxRows true (emptyPage e rowsAffected) res) ∧
      record drivers r = some (e.at (e.fetched + (e.window 0 maxRows).length)))
    hfind hcursor _).pre ?_).post ?_
  · rintro w ⟨hmanager, hpage, n, hrecord, hn⟩
    rw [hn rfl] at hrecord
    exact ⟨hmanager, hpage, hrecord⟩
  · rintro isHeld w ⟨rfl, hslot, ⟨rowsAffected, hpage⟩, hrecord⟩
    have hheld : (if res.truncated then some r else none).isSome = res.truncated := by
      cases res.truncated <;> rfl
    refine ⟨res, rowsAffected, _, by rw [hheld], hpage, rfl, ⟨r, hrecord⟩, i, _, hslot, hdriver, ?_⟩
    by_cases hfull : res.truncated = true
    · rw [if_pos hfull, if_pos hfull]
      exact ⟨r, rfl, hrecord⟩
    · rw [if_neg hfull, if_neg hfull]
      rfl

end Answers

/-! ## The methods -/

section Methods

variable {driver : Text} {these : Execution → Prop} {params : Option Json} {w₀ : World σ}

/-- `query.run` with a cursor: the first page of an execution, unless running it fails. -/
theorem runCursor_answers (hc : Contract env record) {p : QueryRunParams} {mgr : Manager} {i : ℕ}
    {s : Slot} (hruns : Runs env record s.driver p.sql these) (hmax : 0 < p.limit)
    (hfind : mgr.findSlot p.id = some (i, s)) :
    Triple (fun w ↦ w.manager = mgr) (runCursor env s.driver s.handle p)
      fun answer w ↦
        ((∃ err, answer = .error err) ∧ ¬ Succeeds env s.driver p.sql) ∧
            CursorOn record p.id s.driver none w ∨
          ∃ e, these e ∧ CursorAnswer env record p.id s.driver e p.limit answer w := by
  obtain ⟨hslot, hid, hset⟩ := Manager.findSlot_eq_some hfind
  let mgr' := mgr.setSlot i (some { s with cursor := none })
  have hfind' : mgr'.findSlot p.id = some (i, { s with cursor := none }) :=
    hset { s with cursor := none } hid
  apply Triple.bind (setCursor_none_manager hfind)
  intro _
  apply Triple.bind (Q := fun page w ↦ w.manager = mgr' ∧
    Serves env record s.driver p.sql these 0 p.limit true page w)
  · refine ⟨fun w hw ↦ ⟨((queryOpen_kept hc).run w (kept_zero hw)).manager, ?_⟩⟩
    exact (queryOpen_serves hc hruns hmax (P := fun _ ↦ True)).run w trivial
  intro page
  cases page with
  | error failure =>
    refine .pure fun w hw ↦ ?_
    have hcursor : w.manager.findSlot p.id = some (i, { s with cursor := none }) := by
      rw [hw.1, hfind']
    rcases hw.2 with ⟨-, hsucceeds⟩ | ⟨r, e, he, hpages, -⟩
    · exact .inl ⟨⟨⟨_, rfl⟩, hsucceeds⟩, i, _, hcursor, rfl, rfl⟩
    · exact .inr ⟨e, he, cursorAnswer_error hpages hcursor rfl rfl⟩
  | ok page =>
    refine ⟨fun w hw ↦ ?_⟩
    rcases hw.2 with ⟨⟨failure, hpage⟩, -⟩ | ⟨r, e, he, hpages, hcursor⟩
    · cases hpage
    · obtain ⟨res, cursor⟩ := page
      obtain rfl : cursor = if res.truncated then some r else none := hcursor res cursor rfl
      have hstore : Triple (fun w ↦ w.manager = mgr' ∧ Pages env record r e 0 p.limit true (.ok res) w)
          (do
            let isHeld ← storeCursor env s.driver p.id (if res.truncated then some r else none)
            return .ok (ipcPageToJson res isHeld))
          (CursorAnswer env record p.id s.driver e p.limit) :=
        .bind (storeCursor_answer hfind' rfl rfl) fun isHeld ↦ .pure fun w hw ↦ hw
      exact .inr ⟨e, he, hstore.run w ⟨hw.1, hpages⟩⟩

/-- `query.next`: the next page of the execution its cursor stands for. -/
theorem nextPage_answers (hc : Contract env record) {p : QueryNextParams} {mgr : Manager} {i : ℕ}
    {s : Slot} {r : ResultId} {e : Execution} (hmax : 0 < p.limit)
    (hfind : mgr.findSlot p.id = some (i, s)) (hcursor : s.cursor = some r) :
    Triple (fun w ↦ w.manager = mgr ∧ Recorded record r e w) (nextPage env s.driver s.handle p)
      (CursorAnswer env record p.id s.driver e p.limit) := by
  obtain ⟨hslot, hid, hset⟩ := Manager.findSlot_eq_some hfind
  let mgr' := mgr.setSlot i (some { s with cursor := none })
  have hfind' : mgr'.findSlot p.id = some (i, { s with cursor := none }) :=
    hset { s with cursor := none } hid
  apply Triple.bind (takeCursor_manager (P := fun drivers ↦ record drivers r = some e) hfind)
  intro cursor
  apply Triple.of_imp
  rintro rfl
  rw [hcursor]
  apply Triple.bind (Q := fun page w ↦ w.manager = mgr' ∧
    Pages env record r e 0 p.limit true (page.map Prod.fst) w ∧
      ∀ res isOpen, page = .ok (res, isOpen) → isOpen = res.truncated)
  · refine ⟨fun w hw ↦ ⟨?_, (queryNext_pages hc hmax).run w hw.2⟩⟩
    exact ((queryNext_kept hc (Nat.zero_le r)).run w (kept_zero hw.1)).manager
  intro page
  cases page with
  | error failure =>
    refine .pure fun w hw ↦ ?_
    have hnone : w.manager.findSlot p.id = some (i, { s with cursor := none }) := by
      rw [hw.1, hfind']
    exact cursorAnswer_error hw.2.1 hnone rfl rfl
  | ok page =>
    obtain ⟨res, isOpen⟩ := page
    refine ⟨fun w hw ↦ ?_⟩
    obtain ⟨hmanager, hpages, hopen⟩ := hw
    obtain rfl : isOpen = res.truncated := hopen res isOpen rfl
    have hstore : Triple (fun w ↦ w.manager = mgr' ∧ Pages env record r e 0 p.limit true (.ok res) w)
        (do
          let isHeld ← storeCursor env s.driver p.id (if res.truncated then some r else none)
          return .ok (ipcPageToJson res isHeld))
        (CursorAnswer env record p.id s.driver e p.limit) :=
      .bind (storeCursor_answer hfind' rfl rfl) fun isHeld ↦ .pure fun w hw ↦ hw
    exact hstore.run w ⟨hmanager, hpages⟩

theorem runPlain_answers (hc : Contract env record) {p : QueryRunParams} {handle : Handle}
    (hruns : Runs env record driver p.sql these) (hmax : 0 < p.limit) {P : World σ → Prop} :
    Triple P (runPlain env driver handle p)
      fun answer w ↦ (∃ err, answer = .error err) ∧ ¬ Succeeds env driver p.sql ∨
        ∃ e, these e ∧ PlainAnswer env record e p.offset p.limit answer w := by
  apply Triple.bind (queryRun_serves hc hruns hmax)
  intro page
  cases page with
  | error failure =>
    refine .pure fun w hw ↦ ?_
    rcases hw with ⟨-, hsucceeds⟩ | ⟨r, e, he, hpages, -⟩
    · exact .inl ⟨⟨_, rfl⟩, hsucceeds⟩
    · exact .inr ⟨e, he, hpages.imp_left And.left⟩
  | ok res =>
    refine .pure fun w hw ↦ ?_
    rcases hw with ⟨⟨failure, hpage⟩, -⟩ | ⟨r, e, he, ⟨⟨rowsAffected, hpage⟩, n, hrecord, -⟩, -⟩
    · cases hpage
    · exact .inr ⟨e, he, res, rowsAffected, n, r, rfl, hpage, hrecord⟩

/-- The connection `id` of `driver` is open. -/
def Connected (id : ℕ) (driver : Text) (w : World σ) : Prop :=
  ∃ i s, w.manager.findSlot id = some (i, s) ∧ s.driver = driver

/-- A request on an open connection is its method on the slot of the connection. -/
theorem withConn_connected {id : ℕ} {f : Text → Handle → CoreM σ Answer}
    {P : World σ → Prop} {Q : Answer → World σ → Prop} (hP : ∀ w, P w → Connected id driver w)
    (hf : ∀ mgr i s, mgr.findSlot id = some (i, s) → s.driver = driver →
      Triple (fun w ↦ w.manager = mgr ∧ P w) (f s.driver s.handle) Q) :
    Triple P (withConn id f) Q := by
  refine ⟨fun w hw ↦ ?_⟩
  obtain ⟨i, s, hfind, hdriver⟩ := hP w hw
  have hget : Triple (fun v ↦ v.manager = w.manager ∧ P v) (withConn id f) Q := by
    apply Triple.bind (connManagerGet_spec fun v hv ↦ hv.1)
    intro ref
    apply Triple.of_imp
    rintro rfl
    rw [hfind]
    exact hf w.manager i s hfind hdriver
  exact hget.run w ⟨rfl, hw⟩

theorem queryRun_cursor_answers (hc : Contract env record) {p : QueryRunParams}
    (hparams : queryRunParams params = .ok p) (hkeep : p.keepCursor = true)
    (hruns : Runs env record driver p.sql these) :
    Triple (Connected p.id driver) (ipcMethodQueryRun env params)
      fun answer w ↦
        ((∃ err, answer = .error err) ∧ ¬ Succeeds env driver p.sql) ∧
            CursorOn record p.id driver none w ∨
          ∃ e, these e ∧ CursorAnswer env record p.id driver e p.limit answer w := by
  obtain ⟨hid, hsql, hlimit, -⟩ := queryRunParams_ok hparams
  rw [ipcMethodQueryRun, hparams]
  refine withConn_connected (fun w hw ↦ hw) fun mgr i s hfind hdriver ↦ ?_
  subst hdriver
  simp only [hkeep, if_true]
  exact (runCursor_answers hc hruns (ipcQueryLimit_pos hlimit) hfind).pre fun w hw ↦ hw.1

theorem queryRun_plain_answers (hc : Contract env record) {p : QueryRunParams}
    (hparams : queryRunParams params = .ok p) (hkeep : p.keepCursor = false)
    (hruns : Runs env record driver p.sql these) :
    Triple (Connected p.id driver) (ipcMethodQueryRun env params)
      fun answer w ↦ (∃ err, answer = .error err) ∧ ¬ Succeeds env driver p.sql ∨
        ∃ e, these e ∧ PlainAnswer env record e p.offset p.limit answer w := by
  obtain ⟨hid, hsql, hlimit, -⟩ := queryRunParams_ok hparams
  rw [ipcMethodQueryRun, hparams]
  refine withConn_connected (fun w hw ↦ hw) fun mgr i s hfind hdriver ↦ ?_
  subst hdriver
  simp only [hkeep, Bool.false_eq_true, if_false]
  exact runPlain_answers hc hruns (ipcQueryLimit_pos hlimit)

/-- The error of `query.next` on a connection without a cursor. -/
def noCursor : IpcError := ⟨ipcErrNotFound, "no open cursor for this connection".toList⟩

theorem CursorOn.connected {id : ℕ} {e : Option Execution} {w : World σ}
    (hw : CursorOn record id driver e w) : Connected id driver w := by
  obtain ⟨i, s, hfind, hdriver, -⟩ := hw
  exact ⟨i, s, hfind, hdriver⟩

theorem queryNext_answers (hc : Contract env record) {p : QueryNextParams} {e : Execution}
    (hparams : queryNextParams params = .ok p) :
    Triple (CursorOn record p.id driver (some e)) (ipcMethodQueryNext env params)
      (CursorAnswer env record p.id driver e p.limit) := by
  obtain ⟨hid, hlimit⟩ := queryNextParams_ok hparams
  rw [ipcMethodQueryNext, hparams]
  refine withConn_connected (fun w hw ↦ hw.connected) fun mgr i s hfind hdriver ↦ ?_
  subst hdriver
  refine ⟨fun w hw ↦ ?_⟩
  obtain ⟨rfl, j, t, hfind', -, r, hcursor, hrecord⟩ := hw
  cases hfind.symm.trans hfind'
  exact (nextPage_answers hc (ipcQueryLimit_pos hlimit) hfind hcursor).run w ⟨rfl, hrecord⟩

theorem queryNext_noCursor {p : QueryNextParams} (hparams : queryNextParams params = .ok p) :
    Triple (CursorOn record p.id driver none) (ipcMethodQueryNext env params)
      fun answer w ↦ answer = .error noCursor ∧ CursorOn record p.id driver none w := by
  rw [ipcMethodQueryNext, hparams]
  refine withConn_connected (fun w hw ↦ hw.connected) fun mgr i s hfind hdriver ↦ ?_
  subst hdriver
  obtain ⟨hslot, hid, hset⟩ := Manager.findSlot_eq_some hfind
  refine ⟨fun w hw ↦ ?_⟩
  obtain ⟨rfl, j, t, hfind', -, hnone⟩ := hw
  cases hfind.symm.trans hfind'
  have htake : Triple (fun v ↦ v.manager = w.manager ∧ True) (nextPage env s.driver s.handle p)
      fun answer v ↦ answer = .error noCursor ∧ CursorOn record p.id s.driver none v := by
    apply Triple.bind (takeCursor_manager (P := fun _ ↦ True) hfind)
    intro cursor
    apply Triple.of_imp
    rintro rfl
    rw [hnone]
    refine .pure fun v hv ↦ ⟨rfl, i, { s with cursor := none }, ?_, rfl, rfl⟩
    rw [hv.1]
    exact hset { s with cursor := none } hid
  exact htake.run w ⟨rfl, trivial⟩

/-- The request does not ask for a cursor. -/
def IsPlain (params : Option Json) : Prop :=
  ∀ p, queryRunParams params = .ok p → p.keepCursor = false

/-- A plain run leaves the cursor of every connection where it is. -/
theorem queryRun_plain_kept (hc : Contract env record) (hplain : IsPlain params) {mgr : Manager}
    {n : ℕ} {old : ResultId → Option Execution} :
    Triple (Kept record mgr n old) (ipcMethodQueryRun env params)
      fun _ ↦ Kept record mgr n old := by
  rw [ipcMethodQueryRun]
  cases hparams : queryRunParams params with
  | error err => exact .pure fun w hw ↦ hw
  | ok p =>
    apply withConn_spec (Q := fun _ ↦ Kept record mgr n old) (fun w hw ↦ hw.manager) fun w hw ↦ hw
    intro i s hfind
    simp only [hplain p hparams, Bool.false_eq_true, if_false]
    apply Triple.bind (queryRun_kept hc)
    intro page
    cases page with
    | error failure => exact .pure fun w hw ↦ hw
    | ok res => exact .pure fun w hw ↦ hw

theorem queryRun_plain_cursorOn (hc : Contract env record) (hplain : IsPlain params) {id : ℕ}
    {e : Option Execution} :
    Triple (fun w ↦ Consistent w ∧ CursorOn record id driver e w) (ipcMethodQueryRun env params)
      fun _ w ↦ Consistent w ∧ CursorOn record id driver e w := by
  refine ⟨fun w hw ↦ ⟨?_, ?_⟩⟩
  · exact (consistent_of_told fun _ _ ↦ ipcMethodQueryRun_spec).run w hw.1
  · obtain ⟨hconsistent, i, s, hfind, hdriver, hstands⟩ := hw
    have hkept := (queryRun_plain_kept hc hplain).run w
      ⟨rfl, le_rfl, fun c _ ↦ (rfl : record w.drivers c = record w.drivers c)⟩
    refine ⟨i, s, by rw [hkept.manager, hfind], hdriver, ?_⟩
    cases e with
    | none => exact hstands
    | some e =>
      obtain ⟨r, hcursor, hrecord⟩ := hstands
      have hheld : r ∈ w.manager.cursors := by
        have hcursorOf : w.manager.cursorOf id = some r := by
          rw [Manager.cursorOf, hfind]
          exact hcursor
        exact Manager.mem_cursors hcursorOf
      have hgiven := (hconsistent.holding.live_iff r).2 (.inr hheld)
      exact ⟨r, hcursor, (hkept.record r (hconsistent.below.given r hgiven.1)).trans hrecord⟩

end Methods

end Squaero.Ipc
