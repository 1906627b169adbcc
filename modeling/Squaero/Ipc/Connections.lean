import Squaero.Core.Frame
import Squaero.Core.Slots
import Squaero.Ipc.Ownership

/-!
# What a request does to the connections

The manager as a map from ids to connections, before and after each request: `conn.open` adds one,
`conn.close` takes one away, the transaction methods change the flag of theirs and the queries the
cursor of theirs. A request for an id without connection reaches nobody.
-/

namespace Squaero.Ipc

open Squaero.Lib Squaero.Core

variable {σ : Type} {env : Env σ} {mgr : Manager} {id i : ℕ} {s : Slot} {params : Option Json}
  {w : World σ}

/-! ## Requests for no connection -/

/-- The connection a request is for. -/
def Op.target : Op → Option ℕ
  | .connOpen _ => none
  | .connClose params => (ipcConnId params).toOption
  | .queryRun params => (ipcConnId params).toOption
  | .queryNext params => (ipcConnId params).toOption
  | .queryCursorClose params => (ipcConnId params).toOption
  | .tx _ params => (ipcConnId params).toOption
  | .connManagerFree => none

theorem toOption_eq_some {α : Type} {x : Except IpcError α} {a : α} :
    x.toOption = some a ↔ x = .ok a := by
  cases x <;> simp [Except.toOption]

theorem findSlot_eq_none (h : mgr.conn id = none) : mgr.findSlot id = none :=
  Option.map_eq_none_iff.1 h

theorem withConn_none {f : Text → Handle → CoreM σ Answer} (hnone : w.manager.conn id = none) :
    Triple (fun v ↦ v = w) (withConn id f) fun answer v ↦ (∃ e, answer = .error e) ∧ v = w := by
  have hmanager : ∀ v, v = w → v.manager = w.manager := fun v hv ↦ congrArg World.manager hv
  apply withConn_spec hmanager fun v hv ↦ ⟨⟨unknownConn, rfl⟩, hv⟩
  intro i s hfind
  rw [findSlot_eq_none hnone] at hfind
  cases hfind

/-- A request on a connection there is. -/
theorem withConn_some {f : Text → Handle → CoreM σ Answer} {Q : Answer → World σ → Prop}
    (hconn : mgr.conn id = some s)
    (hf : Triple (fun w ↦ w.manager = mgr) (f s.driver s.handle) Q) :
    Triple (fun w ↦ w.manager = mgr) (withConn id f) Q := by
  obtain ⟨⟨i, s⟩, hfind, rfl⟩ := Option.map_eq_some_iff.1 hconn
  apply Triple.bind (connManagerGet_spec fun w hw ↦ hw)
  intro ref
  apply Triple.of_imp
  rintro rfl
  rw [hfind]
  exact hf

/-- A request for an id without connection is answered with an error and does nothing. -/
theorem handle_none (op : Op) (htarget : op.target = some id) (hnone : w.manager.conn id = none) :
    Triple (fun v ↦ v = w) (op.handle env)
      fun answer v ↦ (∃ e, answer = some (.error e)) ∧ v = w := by
  have hanswer {m : CoreM σ Answer}
      (hm : Triple (fun v ↦ v = w) m fun answer v ↦ (∃ e, answer = .error e) ∧ v = w) :
      Triple (fun v ↦ v = w) (some <$> m) fun answer v ↦ (∃ e, answer = some (.error e)) ∧ v = w :=
    .map (hm.post fun answer v hv ↦ ⟨hv.1.imp fun e he ↦ congrArg some he, hv.2⟩)
  cases op with
  | connOpen params => cases htarget
  | connManagerFree => cases htarget
  | connClose params =>
    apply hanswer
    rw [ipcMethodConnClose, toOption_eq_some.1 htarget]
    apply Triple.bind (Q := fun st v ↦ st = .param ∧ v = w)
    · have hmanager : ∀ v, v = w → v.manager = w.manager := fun v hv ↦ congrArg World.manager hv
      apply Triple.bind (getManager_spec hmanager)
      intro m
      apply Triple.of_imp
      rintro rfl
      rw [findSlot_eq_none hnone]
      exact .pure fun v hv ↦ ⟨rfl, hv⟩
    intro st
    apply Triple.of_imp
    rintro rfl
    exact .pure fun v hv ↦ ⟨⟨unknownConn, rfl⟩, hv⟩
  | queryRun params =>
    apply hanswer
    rw [ipcMethodQueryRun]
    cases hparams : queryRunParams params with
    | error e => exact .pure fun v hv ↦ ⟨⟨e, rfl⟩, hv⟩
    | ok p =>
      cases (queryRunParams_ok hparams).1.symm.trans (toOption_eq_some.1 htarget)
      exact withConn_none hnone
  | queryNext params =>
    apply hanswer
    rw [ipcMethodQueryNext]
    cases hparams : queryNextParams params with
    | error e => exact .pure fun v hv ↦ ⟨⟨e, rfl⟩, hv⟩
    | ok p =>
      cases (queryNextParams_ok hparams).1.symm.trans (toOption_eq_some.1 htarget)
      exact withConn_none hnone
  | queryCursorClose params =>
    apply hanswer
    rw [ipcMethodQueryCursorClose, toOption_eq_some.1 htarget]
    exact withConn_none hnone
  | tx op params =>
    apply hanswer
    rw [txDispatch, toOption_eq_some.1 htarget]
    exact withConn_none hnone

/-! ## Opening and closing -/

theorem perform_manager {driver : Text} {α : Type} {call : Call α} :
    Triple (fun w ↦ w.manager = mgr) (perform env driver call) fun _ w ↦ w.manager = mgr :=
  ⟨fun _ hw ↦ hw⟩

theorem connManagerOpen_conn {driver dsn : Text} (hmgr : mgr.Numbered) :
    Triple (fun w ↦ w.manager = mgr) (connManagerOpen env driver dsn)
      fun opened w ↦ (∃ failure, opened = .error failure) ∧ w.manager = mgr ∨
        opened = .ok mgr.nextId ∧ w.manager.Numbered ∧ w.manager.nextId = mgr.nextId + 1 ∧
          ∃ handle, w.manager.conn =
            Function.update mgr.conn mgr.nextId (some ⟨mgr.nextId, driver, handle, none, false⟩) := by
  apply Triple.bind (Q := fun _ w ↦ w.manager = mgr)
  · exact ⟨fun w hw ↦ hw⟩
  intro tunnel
  cases tunnel with
  | error failure => exact .pure fun w hw ↦ .inl ⟨⟨failure, rfl⟩, hw⟩
  | ok effectiveDsn =>
    apply Triple.bind (Q := fun _ w ↦ w.manager = mgr)
    · exact ⟨fun w hw ↦ hw⟩
    intro handle
    apply Triple.bind perform_manager
    rintro ⟨st, given⟩
    apply Triple.ite
    · intro hfailed
      apply Triple.ite
      · intro hgiven
        apply Triple.bind perform_manager
        intro msg
        apply Triple.bind perform_manager
        intro _
        exact .pure fun w hw ↦ .inl ⟨⟨_, rfl⟩, hw⟩
      · intro hnone
        exact .pure fun w hw ↦ .inl ⟨⟨_, rfl⟩, hw⟩
    intro hok
    apply Triple.ite
    · intro hnone
      exact .pure fun w hw ↦ .inl ⟨⟨_, rfl⟩, hw⟩
    intro hgiven
    apply Triple.bind (getManager_spec fun w hw ↦ hw)
    intro m
    apply Triple.of_imp
    rintro rfl
    apply Triple.thenReturn
    obtain ⟨hnumbered, hnext, hconn⟩ := Manager.acquire_conn
      (s := ⟨mgr.nextId, driver, handle, none, false⟩) hmgr rfl
    exact setManager_spec fun w hw ↦ .inr ⟨rfl, hnumbered, hnext, handle, hconn⟩

theorem releaseSlot_conn (hmgr : mgr.Numbered) (hfind : mgr.findSlot id = some (i, s)) :
    Triple (fun w ↦ w.manager = mgr) (releaseSlot env i s)
      fun _ w ↦ mgr.Sets id none w.manager := by
  apply Triple.bind (Q := fun _ w ↦ w.manager = mgr)
  · cases s.cursor with
    | none => exact .pure fun w hw ↦ hw
    | some r =>
      rw [freeOther]
      exact .ite (fun _ ↦ perform_manager) fun _ ↦ .pure fun w hw ↦ hw
  intro _
  apply Triple.bind (getManager_spec fun w hw ↦ hw)
  intro m
  apply Triple.of_imp
  rintro rfl
  apply Triple.bind (setManager_spec (Q := fun _ w ↦
    w.manager = mgr.setSlot i (some { s with cursor := none })) fun w hw ↦ rfl)
  intro _
  apply Triple.bind perform_manager
  intro _
  apply Triple.bind (getManager_spec fun w hw ↦ hw)
  intro m
  apply Triple.of_imp
  rintro rfl
  refine setManager_spec fun w hw ↦ ?_
  rw [Manager.setSlot_setSlot]
  exact Manager.sets_setSlot hmgr hfind fun t ht ↦ by cases ht

theorem connManagerClose_conn (hmgr : mgr.Numbered) (hconn : mgr.conn id = some s) :
    Triple (fun w ↦ w.manager = mgr) (connManagerClose env id)
      fun st w ↦ st = .ok ∧ mgr.Sets id none w.manager := by
  obtain ⟨⟨i, s⟩, hfind, rfl⟩ := Option.map_eq_some_iff.1 hconn
  apply Triple.bind (getManager_spec fun w hw ↦ hw)
  intro m
  apply Triple.of_imp
  rintro rfl
  rw [hfind]
  apply Triple.bind (releaseSlot_conn hmgr hfind)
  intro _
  exact .pure fun w hw ↦ ⟨rfl, hw⟩

/-! ## Transactions -/

theorem setInTx_conn (hmgr : mgr.Numbered) (hconn : mgr.conn id = some s) {isOpen : Bool} :
    Triple (fun w ↦ w.manager = mgr) (setInTx id isOpen : CoreM σ Bool)
      fun _ w ↦ mgr.Sets id (some { s with inTx := isOpen }) w.manager := by
  obtain ⟨⟨i, s⟩, hfind, rfl⟩ := Option.map_eq_some_iff.1 hconn
  apply Triple.bind (getManager_spec fun w hw ↦ hw)
  intro m
  apply Triple.of_imp
  rintro rfl
  rw [hfind]
  apply Triple.thenReturn
  refine setManager_spec fun w hw ↦ Manager.sets_setSlot hmgr hfind ?_
  rintro t ⟨⟩
  exact (Manager.findSlot_eq_some hfind).2.1

theorem runTx_manager {op : TxOp} {driver : Text} {handle : Handle} :
    Triple (fun w ↦ w.manager = mgr) (runTx env driver handle op) fun _ w ↦ w.manager = mgr := by
  apply Triple.ite
  · intro hsupported
    apply Triple.bind perform_manager
    intro st
    apply Triple.ite
    · intro hfailed
      apply Triple.bind perform_manager
      intro msg
      exact .pure fun w hw ↦ hw
    · intro hok
      exact .pure fun w hw ↦ hw
  · intro hunsupported
    exact .pure fun w hw ↦ hw

/-- A transaction method on the connection `s`: an error that changes nothing, or the new flag. -/
theorem txOnConn_conn (hmgr : mgr.Numbered) (hconn : mgr.conn id = some s) {op : TxOp} {driver : Text}
    {handle : Handle} :
    Triple (fun w ↦ w.manager = mgr) (txOnConn env op id driver handle)
      fun answer w ↦ ((∃ e, answer = .error e) ∧ op ≠ .rollback) ∧ w.manager = mgr ∨
        (op = .rollback ∨ ∃ result, answer = .ok result) ∧
          mgr.Sets id (some { s with inTx := op = .begin }) w.manager := by
  apply Triple.bind (getManager_spec fun w hw ↦ hw)
  intro m
  apply Triple.of_imp
  rintro rfl
  apply Triple.ite
  · rintro ⟨rfl, hinTx⟩
    exact .pure fun w hw ↦ .inl ⟨⟨⟨alreadyInTx, rfl⟩, by simp⟩, hw⟩
  intro hfree
  apply Triple.bind runTx_manager
  rintro ⟨st, msg⟩
  by_cases hnote : op = .rollback ∨ st = .ok
  · apply Triple.bind (Q := fun _ w ↦ mgr.Sets id (some { s with inTx := op = .begin }) w.manager)
    · rw [noteTx, if_pos hnote]
      exact Triple.thenReturn (setInTx_conn hmgr hconn)
    intro _
    apply Triple.ite
    · intro hfailed
      exact .pure fun w hw ↦ .inr ⟨hnote.imp_right fun hok ↦ absurd hok hfailed, hw⟩
    · intro hok
      exact .pure fun w hw ↦ .inr ⟨.inr ⟨_, rfl⟩, hw⟩
  · obtain ⟨hop, hst⟩ := not_or.1 hnote
    apply Triple.bind (Q := fun _ w ↦ w.manager = mgr)
    · rw [noteTx, if_neg hnote]
      exact .pure fun w hw ↦ hw
    intro _
    rw [if_pos hst]
    exact .pure fun w hw ↦ .inl ⟨⟨⟨_, rfl⟩, hop⟩, hw⟩

/-! ## Queries -/

/-- At most the cursor of the connection `id` is another one. -/
def Recursored (mgr : Manager) (id : ℕ) (mgr' : Manager) : Prop :=
  mgr' = mgr ∨ ∃ s cursor, mgr.conn id = some s ∧ mgr.Sets id (some { s with cursor := cursor }) mgr'

theorem Recursored.trans {mgr' mgr'' : Manager} (h : Recursored mgr id mgr')
    (h' : Recursored mgr' id mgr'') : Recursored mgr id mgr'' := by
  rcases h with rfl | ⟨s, cursor, hconn, hsets⟩
  · exact h'
  rcases h' with rfl | ⟨s', cursor', hconn', hsets'⟩
  · exact .inr ⟨s, cursor, hconn, hsets⟩
  rw [hsets.conn, Function.update_self] at hconn'
  cases hconn'
  refine .inr ⟨s, cursor', hconn, hsets'.numbered, hsets'.next.trans hsets.next, ?_⟩
  rw [hsets'.conn, hsets.conn, Function.update_idem]

theorem setSlot_recursored (hmgr : mgr.Numbered) (hfind : mgr.findSlot id = some (i, s))
    (cursor : Option ResultId) :
    Recursored mgr id (mgr.setSlot i (some { s with cursor := cursor })) := by
  refine .inr ⟨s, cursor, Manager.conn_of_find hfind, Manager.sets_setSlot hmgr hfind ?_⟩
  rintro t ⟨⟩
  exact (Manager.findSlot_eq_some hfind).2.1

theorem Recursored.numbered {mgr' : Manager} (hmgr : mgr.Numbered) (h : Recursored mgr id mgr') :
    mgr'.Numbered := by
  rcases h with rfl | ⟨s, cursor, hconn, hsets⟩
  · exact hmgr
  · exact hsets.numbered

theorem takeCursor_conn (hmgr : mgr.Numbered) :
    Triple (fun w ↦ w.manager = mgr) (takeCursor id : CoreM σ (Option ResultId))
      fun _ w ↦ Recursored mgr id w.manager := by
  apply Triple.bind (getManager_spec fun w hw ↦ hw)
  intro m
  apply Triple.of_imp
  rintro rfl
  cases hfind : mgr.findSlot id with
  | none => exact .pure fun w hw ↦ .inl hw
  | some found =>
    apply Triple.thenReturn
    exact setManager_spec fun w hw ↦ setSlot_recursored hmgr hfind none

theorem setCursor_conn (hmgr : mgr.Numbered) (cursor : Option ResultId) :
    Triple (fun w ↦ w.manager = mgr) (setCursor env id cursor)
      fun _ w ↦ Recursored mgr id w.manager := by
  apply Triple.bind (getManager_spec fun w hw ↦ hw)
  intro m
  apply Triple.of_imp
  rintro rfl
  cases hfind : mgr.findSlot id with
  | none => exact .pure fun w hw ↦ .inl hw
  | some found =>
    obtain ⟨i, s⟩ := found
    apply Triple.bind (Q := fun _ w ↦ w.manager = mgr)
    · cases s.cursor with
      | none => exact .pure fun w hw ↦ hw
      | some r =>
        rw [freeOther]
        exact .ite (fun _ ↦ perform_manager) fun _ ↦ .pure fun w hw ↦ hw
    intro _
    apply Triple.bind (getManager_spec fun w hw ↦ hw)
    intro m
    apply Triple.of_imp
    rintro rfl
    apply Triple.thenReturn
    exact setManager_spec fun w hw ↦ setSlot_recursored hmgr hfind cursor

/-- From one step to the next the cursor of the connection may change. -/
theorem recursored_bind {α β : Type} {m : CoreM σ α} {f : α → CoreM σ β} (hmgr : mgr.Numbered)
    (hm : ∀ mgr : Manager, mgr.Numbered →
      Triple (fun w ↦ w.manager = mgr) m fun _ w ↦ Recursored mgr id w.manager)
    (hf : ∀ a (mgr : Manager), mgr.Numbered →
      Triple (fun w ↦ w.manager = mgr) (f a) fun _ w ↦ Recursored mgr id w.manager) :
    Triple (fun w ↦ w.manager = mgr) (m >>= f) fun _ w ↦ Recursored mgr id w.manager := by
  apply Triple.bind (hm mgr hmgr)
  intro a
  refine ⟨fun w hw ↦ ?_⟩
  exact hw.trans ((hf a w.manager (hw.numbered hmgr)).run w rfl)

theorem recursored_of_manager {α : Type} {m : CoreM σ α}
    (hm : Triple (fun w ↦ w.manager = mgr) m fun _ w ↦ w.manager = mgr) :
    Triple (fun w ↦ w.manager = mgr) m fun _ w ↦ Recursored mgr id w.manager :=
  hm.post fun _ _ hw ↦ .inl hw

theorem storeCursor_conn (hmgr : mgr.Numbered) {driver : Text} (cursor : Option ResultId) :
    Triple (fun w ↦ w.manager = mgr) (storeCursor env driver id cursor)
      fun _ w ↦ Recursored mgr id w.manager := by
  cases cursor with
  | none => exact .pure fun w hw ↦ .inl hw
  | some r =>
    apply recursored_bind hmgr fun mgr hmgr ↦ setCursor_conn hmgr (some r)
    intro isHeld mgr hmgr
    apply Triple.ite
    · intro hheld
      exact .pure fun w hw ↦ .inl hw
    · intro hgone
      exact recursored_of_manager (Triple.thenReturn perform_manager)

theorem keptByQueries_manager {driver : Text} :
    KeptByQueries env driver fun w ↦ w.manager = mgr where
  perform _ _ := perform_manager
  offer := ⟨fun _ hw ↦ hw⟩

theorem runPlain_manager {driver : Text} {handle : Handle} {p : QueryRunParams} :
    Triple (fun w ↦ w.manager = mgr) (runPlain env driver handle p) fun _ w ↦ w.manager = mgr := by
  apply Triple.bind (queryRun_frame keptByQueries_manager)
  intro page
  cases page with
  | error failure => exact .pure fun w hw ↦ hw
  | ok res => exact .pure fun w hw ↦ hw

theorem runCursor_conn (hmgr : mgr.Numbered) {driver : Text} {handle : Handle}
    {p : QueryRunParams} :
    Triple (fun w ↦ w.manager = mgr) (runCursor env driver handle p)
      fun _ w ↦ Recursored mgr p.id w.manager := by
  apply recursored_bind hmgr fun mgr hmgr ↦ setCursor_conn hmgr none
  intro _ mgr hmgr
  apply recursored_bind hmgr fun mgr hmgr ↦ recursored_of_manager (queryOpen_frame keptByQueries_manager)
  intro page mgr hmgr
  cases page with
  | error failure => exact .pure fun w hw ↦ .inl hw
  | ok page => exact Triple.bind (storeCursor_conn hmgr page.2) fun isHeld ↦ .pure fun w hw ↦ hw

theorem nextPage_conn (hmgr : mgr.Numbered) {driver : Text} {handle : Handle}
    {p : QueryNextParams} :
    Triple (fun w ↦ w.manager = mgr) (nextPage env driver handle p)
      fun _ w ↦ Recursored mgr p.id w.manager := by
  apply recursored_bind hmgr fun mgr hmgr ↦ takeCursor_conn hmgr
  intro cursor mgr hmgr
  cases cursor with
  | none => exact .pure fun w hw ↦ .inl hw
  | some r =>
    apply recursored_bind hmgr fun mgr hmgr ↦ recursored_of_manager (queryNext_frame keptByQueries_manager)
    intro page mgr hmgr
    cases page with
    | error failure => exact .pure fun w hw ↦ .inl hw
    | ok page => exact Triple.bind (storeCursor_conn hmgr _) fun isHeld ↦ .pure fun w hw ↦ hw

theorem closeCursor_conn (hmgr : mgr.Numbered) {driver : Text} :
    Triple (fun w ↦ w.manager = mgr) (closeCursor env driver id)
      fun _ w ↦ Recursored mgr id w.manager := by
  apply recursored_bind hmgr fun mgr hmgr ↦ takeCursor_conn hmgr
  intro cursor mgr hmgr
  cases cursor with
  | none => exact .pure fun w hw ↦ .inl hw
  | some r => exact recursored_of_manager (Triple.thenReturn perform_manager)

/-- A method on a connection there may be. -/
theorem withConn_recursored {f : Text → Handle → CoreM σ Answer}
    (hf : ∀ driver handle, Triple (fun w ↦ w.manager = mgr) (f driver handle)
      fun _ w ↦ Recursored mgr id w.manager) :
    Triple (fun w ↦ w.manager = mgr) (withConn id f) fun _ w ↦ Recursored mgr id w.manager :=
  withConn_spec (fun _ hw ↦ hw) (fun _ hw ↦ .inl hw) fun _ s _ ↦ hf s.driver s.handle

/-- The requests that read: a query changes at most the cursor of its connection. -/
def Op.IsQuery : Op → Prop
  | .queryRun _ => True
  | .queryNext _ => True
  | .queryCursorClose _ => True
  | _ => False

theorem handle_query {op : Op} (hquery : op.IsQuery) (hmgr : mgr.Numbered) :
    Triple (fun w ↦ w.manager = mgr) (op.handle env)
      fun _ w ↦ w.manager = mgr ∨ ∃ id, op.target = some id ∧ Recursored mgr id w.manager := by
  cases op with
  | queryRun params =>
    apply Triple.map
    rw [ipcMethodQueryRun]
    cases hparams : queryRunParams params with
    | error e => exact .pure fun w hw ↦ .inl hw
    | ok p =>
      have htarget := toOption_eq_some.2 (queryRunParams_ok hparams).1
      refine (withConn_recursored fun driver handle ↦ ?_).post fun _ _ hw ↦
        .inr ⟨p.id, htarget, hw⟩
      apply Triple.ite
      · intro hkeep
        exact runCursor_conn hmgr
      · intro hplain
        exact recursored_of_manager runPlain_manager
  | queryNext params =>
    apply Triple.map
    rw [ipcMethodQueryNext]
    cases hparams : queryNextParams params with
    | error e => exact .pure fun w hw ↦ .inl hw
    | ok p =>
      exact (withConn_recursored fun driver handle ↦ nextPage_conn hmgr).post
        fun _ _ hw ↦ .inr ⟨p.id, toOption_eq_some.2 (queryNextParams_ok hparams).1, hw⟩
  | queryCursorClose params =>
    apply Triple.map
    rw [ipcMethodQueryCursorClose]
    cases hid : ipcConnId params with
    | error e => exact .pure fun w hw ↦ .inl hw
    | ok id =>
      exact (withConn_recursored fun driver handle ↦ closeCursor_conn hmgr).post
        fun _ _ hw ↦ .inr ⟨id, toOption_eq_some.2 hid, hw⟩
  | _ => exact hquery.elim

end Squaero.Ipc
