import Squaero.Core.OpRegistry
import Squaero.Ipc.Connections

/-!
# Cancelling a query

The handlers of `core/src/ipc/query_methods.c` with the registry of running queries around what they
run, on a worker whose steps the cancels of the UI thread come between. In every such run a cancel
reaches only the connection it names, while a query runs on it.
-/

namespace Squaero.Ipc.Tracked

open Squaero.Lib Squaero.Core

variable {σ : Type} (env : Env σ) (cancel : Text → Handle → σ → Status × σ)

/-! ## The handlers -/

def runPlain (driver : Text) (handle : Handle) (p : QueryRunParams) : CoreM (Shared σ) Answer := do
  match ← during env cancel p.id driver handle
      (queryRun (env.shared cancel) driver handle p.sql p.limit p.offset) with
  | .error failure => return .error (failureError "query failed" failure)
  | .ok res => return .ok (ipcPageToJson res false)

def runCursor (driver : Text) (handle : Handle) (p : QueryRunParams) : CoreM (Shared σ) Answer := do
  let _ ← setCursor (env.shared cancel) p.id none
  match ← during env cancel p.id driver handle
      (queryOpen (env.shared cancel) driver handle p.sql p.limit) with
  | .error failure => return .error (failureError "query failed" failure)
  | .ok (res, cursor) =>
    let isHeld ← storeCursor (env.shared cancel) driver p.id cursor
    return .ok (ipcPageToJson res isHeld)

def ipcMethodQueryRun (params : Option Json) : CoreM (Shared σ) Answer := do
  match queryRunParams params with
  | .error e => return .error e
  | .ok p =>
    withConn p.id fun driver handle ↦
      if p.keepCursor then runCursor env cancel driver handle p
      else runPlain env cancel driver handle p

def nextPage (driver : Text) (handle : Handle) (p : QueryNextParams) :
    CoreM (Shared σ) Answer := do
  match ← takeCursor p.id with
  | none => return .error ⟨ipcErrNotFound, "no open cursor for this connection".toList⟩
  | some cursor =>
    match ← during env cancel p.id driver handle
        (queryNext (env.shared cancel) driver handle cursor p.limit) with
    | .error failure => return .error (failureError "query failed" failure)
    | .ok (res, isOpen) =>
      let isHeld ← storeCursor (env.shared cancel) driver p.id (if isOpen then some cursor else none)
      return .ok (ipcPageToJson res isHeld)

def ipcMethodQueryNext (params : Option Json) : CoreM (Shared σ) Answer := do
  match queryNextParams params with
  | .error e => return .error e
  | .ok p => withConn p.id fun driver handle ↦ nextPage env cancel driver handle p

/-- Moments for the statements about a trace only. -/
def noteAll (moments : List Moment) : CoreM (Shared σ) Unit := modify fun w ↦
  { w with drivers := { w.drivers with trace := moments ++ w.drivers.trace } }

/-- The connection a request closes. -/
def closings (params : Option Json) : List Moment :=
  match ipcConnId params with
  | .ok id => [.closing id]
  | .error _ => []

/-- A request, and what the trace is to tell of connections. -/
def handle : Op → CoreM (Shared σ) (Option Answer)
  | .connOpen params => do
    let mgr ← getManager
    let answer ← ipcMethodConnOpen (env.shared cancel) params
    let mgr' ← getManager
    noteAll ((mgr'.conn mgr.nextId).toList.map fun s ↦ .opened s.id s.driver s.handle)
    return some answer
  | .connClose params => do
    noteAll (closings params)
    some <$> ipcMethodConnClose (env.shared cancel) params
  | .queryRun params => some <$> ipcMethodQueryRun env cancel params
  | .queryNext params => some <$> ipcMethodQueryNext env cancel params
  | .queryCursorClose params => some <$> ipcMethodQueryCursorClose (env.shared cancel) params
  | .tx op params => some <$> txDispatch (env.shared cancel) op params
  | .connManagerFree => do
    let mgr ← getManager
    noteAll (mgr.live.map fun s ↦ .closing s.id)
    connManagerFree (env.shared cancel)
    return none

/-- One request after the other, with the UI thread before, between and behind them. -/
def runOps : List Op → CoreM (Shared σ) (List (Option Answer))
  | [] => do
    atomically env cancel id
    return []
  | op :: ops => do
    atomically env cancel id
    let answer ← handle env cancel op
    let answers ← runOps ops
    return answer :: answers

/-- What the threads share behind a run in which `cancels` come before the steps of the worker. -/
def worldAfter (drivers : σ) (cancels : List (List ℕ)) (ops : List Op) : World (Shared σ) :=
  ((runOps env cancel ops).run
    (initialWorld ⟨drivers, List.replicate opSlots none, cancels, []⟩)).2

/-! ## What a request preserves -/

variable {env cancel}

/-- The connections of the manager, as a trace tells of them. -/
def connsOf (mgr : Manager) (id : ℕ) : Option (Text × Handle) :=
  (mgr.conn id).map fun s ↦ (s.driver, s.handle)

/-- Between requests no query is in the table, and the trace tells of the connections there are. -/
structure Idle (w : World (Shared σ)) : Prop where
  consistent : Consistent w
  numbered : w.manager.Numbered
  watched : Watched (connsOf w.manager) [] w

section Queries

variable {mgr : Manager} {c : ℕ → Option (Text × Handle)} {past : List Core.Event} {id i : ℕ}
  {s : Slot} {driver : Text} {params : Option Json}

theorem recursored_connsOf {mgr' : Manager} (h : Recursored mgr id mgr') :
    connsOf mgr' = connsOf mgr := by
  rcases h with rfl | ⟨s, cursor, hconn, hsets⟩
  · rfl
  funext other
  rw [connsOf, connsOf, hsets.conn]
  by_cases hother : other = id
  · subst hother
    rw [Function.update_self, hconn]
    rfl
  · rw [Function.update_of_ne hother]

/-- A query run on the connection of a slot, announced under its id. -/
theorem during_working {α : Type} {body : CoreM (Shared σ) α} {inflight : Option ResultId}
    {Q : α → World (Shared σ) → Prop} (hconn : c id = some (driver, s.handle))
    (hQ : ∀ a w drivers, Q a w → Q a { w with drivers := drivers })
    (hbody : Triple (Working mgr s.handle past none inflight) body Q)
    (hframe : ∀ ops, Triple (Watched c ops) body fun _ ↦ Watched c ops) :
    Triple (fun w ↦ Working mgr s.handle past none inflight w ∧ Watched c [] w)
      (during env cancel id driver s.handle body) fun a w ↦ Q a w ∧ Watched c [] w :=
  during_spec hconn
    (fun _ _ hw ↦ ⟨hw.manager, hw.holding, hw.below, hw.handle_mem, hw.reads, hw.not_held, hw.ownedBy⟩)
    hQ (fun _ hw ↦ hw.isOpen) hbody hframe

theorem atomically_manager {step : Shared σ → Shared σ} :
    Triple (fun w ↦ w.manager = mgr) (atomically env cancel step) fun _ w ↦ w.manager = mgr :=
  ⟨fun _ hw ↦ hw⟩

theorem during_manager {α : Type} {body : CoreM (Shared σ) α} {handle : Handle}
    (hbody : Triple (fun w ↦ w.manager = mgr) body fun _ w ↦ w.manager = mgr) :
    Triple (fun w ↦ w.manager = mgr) (during env cancel id driver handle body)
      fun _ w ↦ w.manager = mgr := by
  apply Triple.bind atomically_manager
  intro _
  apply Triple.bind hbody
  intro a
  exact Triple.thenReturn atomically_manager

/-- What a query on a connection leaves behind: a consistent world the UI thread has no part in, and
a manager in which only a cursor changed. -/
structure Queried (mgr : Manager) (id : ℕ) (c : ℕ → Option (Text × Handle)) (w : World (Shared σ)) :
    Prop where
  consistent : Consistent w
  recursored : Recursored mgr id w.manager
  watched : Watched c [] w

theorem working_drivers {handle : Handle} {dr inflight : Option ResultId} {w : World (Shared σ)}
    (hw : Working mgr handle past dr inflight w) (drivers : Shared σ) :
    Working mgr handle past dr inflight { w with drivers := drivers } :=
  ⟨hw.manager, hw.holding, hw.below, hw.handle_mem, hw.reads, hw.not_held, hw.ownedBy⟩

theorem runPlain_queried {p : QueryRunParams} (hfind : mgr.findSlot p.id = some (i, s))
    (hconn : c p.id = some (s.driver, s.handle)) :
    Triple (fun w ↦ (Becoming mgr mgr w ∧ Reads past none w.history) ∧ Watched c [] w)
      (runPlain env cancel s.driver s.handle p) fun _ ↦ Queried mgr p.id c := by
  have hslot := (Manager.findSlot_eq_some hfind).1
  apply Triple.bind ((during_working hconn
    (fun _ _ drivers ⟨dr, hw⟩ ↦ ⟨dr, working_drivers hw drivers⟩) queryRun_spec
    fun ops ↦ queryRun_frame watched_keptByQueries).pre
      fun w hw ↦ ⟨hw.1.1.working hw.1.2 hslot, hw.2⟩)
  intro page
  have hdone (answer : Answer) : Triple
      (fun w ↦ (∃ dr, Working mgr s.handle past dr none w) ∧ Watched c [] w)
      (pure answer : CoreM (Shared σ) Answer) fun _ ↦ Queried mgr p.id c :=
    .pure fun w ⟨⟨dr, hw⟩, hwatched⟩ ↦ ⟨hw.becoming.consistent, .inl hw.manager, hwatched⟩
  cases page with
  | error failure => exact hdone _
  | ok res => exact hdone _

theorem storeCursor_frame {P : World (Shared σ) → Prop} (hP : KeptByAll (env.shared cancel) P)
    {cursor : Option ResultId} :
    Triple P (storeCursor (env.shared cancel) driver id cursor) fun _ ↦ P := by
  cases cursor with
  | none => exact .pure fun w hw ↦ hw
  | some r =>
    apply Triple.bind (setCursor_frame hP)
    intro isHeld
    apply Triple.ite
    · intro hheld
      exact .pure fun w hw ↦ hw
    · intro hgone
      exact Triple.thenReturn (hP.perform _ _)

/-- A result in hands is stored with its connection, or was freed. -/
theorem storeCursor_queried {cursor : Option ResultId} {mgr' : Manager} {s' : Slot}
    (hnumbered : mgr'.Numbered) (hfind : mgr'.findSlot id = some (i, s')) (hcursor : s'.cursor = none)
    (hmgr : Recursored mgr id mgr') :
    Triple (fun w ↦ (∃ dr, Working mgr' s'.handle past dr cursor w ∧ ∀ r ∈ cursor, r ∈ dr) ∧
        Watched c [] w)
      (storeCursor (env.shared cancel) driver id cursor) fun _ ↦ Queried mgr id c := by
  refine ⟨fun w hw ↦ ?_⟩
  obtain ⟨hworking, hwatched⟩ := hw
  have hmanager : w.manager = mgr' := by
    obtain ⟨dr, hw, -⟩ := hworking
    exact hw.manager
  exact
    { consistent := ((storeCursor_spec hfind hcursor).run w hworking).1
      recursored := hmgr.trans ((storeCursor_conn hnumbered cursor).run w hmanager)
      watched := (storeCursor_frame watched_keptByAll).run w hwatched }

theorem runCursor_queried {p : QueryRunParams} (hnumbered : mgr.Numbered)
    (hfind : mgr.findSlot p.id = some (i, s)) (hconn : c p.id = some (s.driver, s.handle)) :
    Triple (fun w ↦ (Becoming mgr mgr w ∧ Reads past none w.history) ∧ Watched c [] w)
      (runCursor env cancel s.driver s.handle p) fun _ ↦ Queried mgr p.id c := by
  obtain ⟨hslot, hid, hset⟩ := Manager.findSlot_eq_some hfind
  let mgr' := mgr.setSlot i (some { s with cursor := none })
  have hmgr : Recursored mgr p.id mgr' := setSlot_recursored hnumbered hfind none
  apply Triple.bind (Q := fun _ w ↦
    Working mgr' s.handle past none none w ∧ Watched c [] w)
  · refine ⟨fun w hw ↦ ⟨(setCursor_none_spec hfind).run w hw.1, ?_⟩⟩
    exact (setCursor_frame watched_keptByAll).run w hw.2
  intro _
  apply Triple.bind (during_working hconn
    (fun _ _ drivers ⟨dr, hw, hdr⟩ ↦ ⟨dr, working_drivers hw drivers, hdr⟩) queryOpen_spec
    fun ops ↦ queryOpen_frame watched_keptByQueries)
  intro page
  cases page with
  | error failure =>
    refine .pure fun w hw ↦ ?_
    obtain ⟨⟨dr, hw, -⟩, hwatched⟩ := hw
    exact ⟨hw.becoming.consistent, hw.manager ▸ hmgr, hwatched⟩
  | ok page =>
    apply Triple.bind (storeCursor_queried (hmgr.numbered hnumbered)
      (hset { s with cursor := none } hid) rfl hmgr)
    intro isHeld
    exact .pure fun w hw ↦ hw

theorem nextPage_queried {p : QueryNextParams} (hnumbered : mgr.Numbered)
    (hfind : mgr.findSlot p.id = some (i, s)) (hconn : c p.id = some (s.driver, s.handle)) :
    Triple (fun w ↦ (Becoming mgr mgr w ∧ Reads past none w.history) ∧ Watched c [] w)
      (nextPage env cancel s.driver s.handle p) fun _ ↦ Queried mgr p.id c := by
  obtain ⟨hslot, hid, hset⟩ := Manager.findSlot_eq_some hfind
  let mgr' := mgr.setSlot i (some { s with cursor := none })
  have hmgr : Recursored mgr p.id mgr' := setSlot_recursored hnumbered hfind none
  apply Triple.bind (Q := fun cursor w ↦
    Working mgr' s.handle past none cursor w ∧ Watched c [] w)
  · refine ⟨fun w hw ↦ ⟨((takeCursor_spec hfind).run w hw.1).2, ?_⟩⟩
    have hframe : KeptByAll (env.shared cancel) (Watched c []) := watched_keptByAll
    exact (takeCursor_frame hframe).run w hw.2
  intro cursor
  cases cursor with
  | none =>
    exact .pure fun w hw ↦ ⟨hw.1.becoming.consistent, hw.1.manager ▸ hmgr, hw.2⟩
  | some r =>
    refine Triple.bind (during_working hconn ?_ queryNext_spec
      fun ops ↦ queryNext_frame watched_keptByQueries) ?_
    · exact fun _ _ drivers hw ↦ working_drivers hw drivers
    intro page
    cases page with
    | error failure =>
      exact .pure fun w hw ↦ ⟨hw.1.becoming.consistent, hw.1.manager ▸ hmgr, hw.2⟩
    | ok page =>
      apply Triple.bind (Q := fun _ ↦ Queried mgr p.id c)
      · refine ⟨fun w hw ↦ (storeCursor_queried (hmgr.numbered hnumbered)
          (hset { s with cursor := none } hid) rfl hmgr).run w ⟨⟨some r, hw.1, fun t ht ↦ ?_⟩, hw.2⟩⟩
        split_ifs at ht
        · exact ht
        · cases ht
      · intro isHeld
        exact .pure fun w hw ↦ hw

end Queries

/-! ## Requests that announce no query -/

section Frames

variable {P : World (Shared σ) → Prop} {params : Option Json} {id : ℕ}

theorem withConn_frame {f : Text → Handle → CoreM (Shared σ) Answer}
    (hf : ∀ driver handle, Triple P (f driver handle) fun _ ↦ P) :
    Triple P (withConn id f) fun _ ↦ P := by
  apply Triple.bind (Q := fun _ ↦ P)
  · exact ⟨fun w hw ↦ hw⟩
  intro ref
  cases ref with
  | none => exact .pure fun w hw ↦ hw
  | some ref => exact hf ref.1 ref.2

variable (hP : KeptByAll (env.shared cancel) P)

include hP

theorem ipcMethodConnOpen_frame :
    Triple P (ipcMethodConnOpen (env.shared cancel) params) fun _ ↦ P := by
  rw [ipcMethodConnOpen]
  split
  next driver hdriver =>
    split
    next => exact .pure fun w hw ↦ hw
    next dsn hdsn =>
      split
      next => exact .pure fun w hw ↦ hw
      next drv hdrv =>
        apply Triple.bind (connManagerOpen_frame hP)
        intro opened
        cases opened with
        | error failure => exact .pure fun w hw ↦ hw
        | ok id => exact .pure fun w hw ↦ hw
  next => exact .pure fun w hw ↦ hw

theorem ipcMethodConnClose_frame :
    Triple P (ipcMethodConnClose (env.shared cancel) params) fun _ ↦ P := by
  rw [ipcMethodConnClose]
  split
  next => exact .pure fun w hw ↦ hw
  next id hid =>
    apply Triple.bind (connManagerClose_frame hP)
    intro st
    exact .ite (fun _ ↦ .pure fun w hw ↦ hw) fun _ ↦ .pure fun w hw ↦ hw

theorem ipcMethodQueryCursorClose_frame :
    Triple P (ipcMethodQueryCursorClose (env.shared cancel) params) fun _ ↦ P := by
  rw [ipcMethodQueryCursorClose]
  split
  next => exact .pure fun w hw ↦ hw
  next id hid =>
    apply withConn_frame
    intro driver handle
    apply Triple.bind (takeCursor_frame hP)
    intro cursor
    cases cursor with
    | none => exact .pure fun w hw ↦ hw
    | some r => exact Triple.thenReturn (hP.perform _ _)

theorem txDispatch_frame {op : TxOp} :
    Triple P (txDispatch (env.shared cancel) op params) fun _ ↦ P := by
  rw [txDispatch]
  split
  next => exact .pure fun w hw ↦ hw
  next id hid =>
    apply withConn_frame
    intro driver handle
    apply Triple.bind getManager_frame
    intro mgr
    apply Triple.ite
    · intro hinTx
      exact .pure fun w hw ↦ hw
    intro hfree
    apply Triple.bind (Q := fun _ ↦ P)
    · apply Triple.ite
      · intro hsupported
        apply Triple.bind (hP.perform _ _)
        intro st
        apply Triple.ite
        · intro hfailed
          apply Triple.bind (hP.perform _ _)
          intro msg
          exact .pure fun w hw ↦ hw
        · intro hok
          exact .pure fun w hw ↦ hw
      · intro hunsupported
        exact .pure fun w hw ↦ hw
    rintro ⟨st, msg⟩
    apply Triple.bind (Q := fun _ ↦ P)
    · apply Triple.ite
      · intro hended
        exact Triple.thenReturn (setInTx_frame hP)
      · intro hopen
        exact .pure fun w hw ↦ hw
    intro _
    exact .ite (fun _ ↦ .pure fun w hw ↦ hw) fun _ ↦ .pure fun w hw ↦ hw

end Frames

/-- Opening adds the next id, or changes nothing. -/
theorem ipcMethodConnOpen_conn {env : Env σ} {mgr : Manager} {params : Option Json}
    (hmgr : mgr.Numbered) :
    Triple (fun w ↦ w.manager = mgr) (ipcMethodConnOpen env params)
      fun _ w ↦ w.manager = mgr ∨ w.manager.Numbered ∧ ∃ s : Slot, s.id = mgr.nextId ∧
        w.manager.conn = Function.update mgr.conn mgr.nextId (some s) := by
  have hnothing (answer : Answer) : Triple (fun w ↦ w.manager = mgr)
      (pure answer : CoreM σ Answer) fun _ w ↦ w.manager = mgr ∨ w.manager.Numbered ∧
        ∃ s : Slot, s.id = mgr.nextId ∧
          w.manager.conn = Function.update mgr.conn mgr.nextId (some s) := .pure fun w hw ↦ .inl hw
  rw [ipcMethodConnOpen]
  split
  next driver hdriver =>
    split
    next => exact hnothing _
    next dsn hdsn =>
      split
      next => exact hnothing _
      next drv hdrv =>
        apply Triple.bind (connManagerOpen_conn hmgr)
        intro opened
        have hopened (answer : Answer) : Triple (fun w : World σ ↦
            (∃ failure, opened = .error failure) ∧ w.manager = mgr ∨
              opened = .ok mgr.nextId ∧ w.manager.Numbered ∧ w.manager.nextId = mgr.nextId + 1 ∧
              ∃ handle, w.manager.conn = Function.update mgr.conn mgr.nextId
                (some ⟨mgr.nextId, driver, handle, none, false⟩)) (pure answer : CoreM σ Answer)
            fun _ w ↦ w.manager = mgr ∨ w.manager.Numbered ∧ ∃ s : Slot, s.id = mgr.nextId ∧
              w.manager.conn = Function.update mgr.conn mgr.nextId (some s) := by
          refine .pure fun w hw ↦ hw.imp And.right ?_
          rintro ⟨-, hnumbered, -, handle, hconn⟩
          exact ⟨hnumbered, _, rfl, hconn⟩
        cases opened with
        | error failure => exact hopened _
        | ok id => exact hopened _
  next => exact hnothing _

/-! ## Runs -/

section Runs

variable {w : World (Shared σ)} {params : Option Json}

theorem watched_noteAll {c c' : ℕ → Option (Text × Handle)} {moments : List Moment}
    (hw : Watched c [] w) (hcalls : calls moments = [])
    (hcancels : ∀ id driver handle, .cancelled id driver handle ∉ moments)
    (hconns : conns (moments ++ w.drivers.trace) = c') :
    Watched c' [] ((noteAll moments).run w).2 := by
  have hsound : SoundTrace (moments ++ w.drivers.trace) := by
    clear hconns hcalls
    induction moments with
    | nil => exact hw.guarded.sound
    | cons moment moments ih =>
      refine (ih fun id driver handle h ↦ hcancels id driver handle (.tail _ h)).cons ?_
      rintro id driver handle rfl
      exact absurd (.head _) (hcancels id driver handle)
  refine ⟨?_, ⟨hsound, fun op hop ↦ ?_⟩, hconns, hw.slots⟩
  · calc
      _ = calls moments ++ calls w.drivers.trace := List.filterMap_append
      _ = _ := by
        rw [hcalls, hw.calls]
        rfl
  · have hempty : op ∈ w.drivers.slots.reduceOption := hop
    rw [hw.slots] at hempty
    cases hempty

theorem idle_of_queried {id : ℕ} (hw : Idle w) {w' : World (Shared σ)}
    (h : Queried w.manager id (connsOf w.manager) w') : Idle w' :=
  ⟨h.consistent, h.recursored.numbered hw.numbered,
    (recursored_connsOf h.recursored).symm ▸ h.watched⟩

/-- A query method keeps the worker idle between requests, once its queries do. -/
theorem idle_of_withConn {f : Text → Handle → CoreM (Shared σ) Answer} {id : ℕ}
    (hf : ∀ mgr past i s c, mgr.Numbered → mgr.findSlot id = some (i, s) →
      c id = some (s.driver, s.handle) →
      Triple (fun w ↦ (Becoming mgr mgr w ∧ Reads past none w.history) ∧ Watched c [] w)
        (f s.driver s.handle) fun _ ↦ Queried mgr id c) :
    Triple Idle (withConn id f) fun _ ↦ Idle := by
  refine ⟨fun w hw ↦ ?_⟩
  have hrun : Triple (fun v ↦ v = w) (withConn id f) fun _ ↦ Idle := by
    apply withConn_spec (fun v hv ↦ congrArg World.manager hv) (fun v hv ↦ hv ▸ hw)
    intro i s hfind
    have hconn : connsOf w.manager id = some (s.driver, s.handle) := by
      rw [connsOf, Manager.conn_of_find hfind]
      rfl
    refine ((hf w.manager w.history i s _ hw.numbered hfind hconn).pre ?_).post
      fun _ _ hdone ↦ idle_of_queried hw hdone
    rintro v rfl
    exact ⟨⟨becoming_self hw.consistent, .refl _⟩, hw.watched⟩
  exact hrun.run w rfl

theorem queryRun_idle : Triple Idle (ipcMethodQueryRun env cancel params) fun _ ↦ Idle := by
  rw [ipcMethodQueryRun]
  split
  next => exact .pure fun w hw ↦ hw
  next p hp =>
    apply idle_of_withConn
    intro mgr past i s c hmgr hfind hconn
    exact .ite (fun _ ↦ runCursor_queried hmgr hfind hconn) fun _ ↦ runPlain_queried hfind hconn

theorem queryNext_idle : Triple Idle (ipcMethodQueryNext env cancel params) fun _ ↦ Idle := by
  rw [ipcMethodQueryNext]
  split
  next => exact .pure fun w hw ↦ hw
  next p hp =>
    apply idle_of_withConn
    intro mgr past i s c hmgr hfind hconn
    exact nextPage_queried hmgr hfind hconn

theorem same_conns {mgr : Manager} (hmgr : mgr.Numbered) (hw : w.manager = mgr) :
    w.manager.Numbered ∧ connsOf w.manager = connsOf mgr := by
  rw [hw]
  exact ⟨hmgr, rfl⟩

/-- A request that changes no connection but in its cursor or its flag. -/
theorem idle_of_conns {m : CoreM (Shared σ) Answer} (hconsistent : Triple Consistent m fun _ ↦ Consistent)
    (hframe : ∀ c, Triple (Watched c []) m fun _ ↦ Watched c [])
    (hconns : ∀ mgr : Manager, mgr.Numbered → Triple (fun w ↦ w.manager = mgr) m
      fun _ w ↦ w.manager.Numbered ∧ connsOf w.manager = connsOf mgr) :
    Triple Idle m fun _ ↦ Idle := by
  refine ⟨fun w hw ↦ ?_⟩
  obtain ⟨hnumbered, hsame⟩ := (hconns w.manager hw.numbered).run w rfl
  exact ⟨hconsistent.run w hw.consistent, hnumbered, hsame ▸ (hframe _).run w hw.watched⟩

theorem queryCursorClose_idle :
    Triple Idle (ipcMethodQueryCursorClose (env.shared cancel) params) fun _ ↦ Idle := by
  apply idle_of_conns ipcMethodQueryCursorClose_spec
    fun c ↦ ipcMethodQueryCursorClose_frame watched_keptByAll
  intro mgr hmgr
  rw [ipcMethodQueryCursorClose]
  split
  next => exact .pure fun w hw ↦ same_conns hmgr hw
  next id hid =>
    refine (withConn_recursored fun driver handle ↦ closeCursor_conn hmgr).post ?_
    exact fun _ w hw ↦ ⟨hw.numbered hmgr, recursored_connsOf hw⟩

/-- Setting what does not concern the driver and the handle of a connection. -/
theorem sets_connsOf {mgr mgr' : Manager} {id : ℕ} {s t : Slot} (hconn : mgr.conn id = some s)
    (h : mgr.Sets id (some t) mgr') (ht : (t.driver, t.handle) = (s.driver, s.handle)) :
    connsOf mgr' = connsOf mgr := by
  funext other
  rw [connsOf, connsOf, h.conn]
  by_cases hother : other = id
  · subst hother
    rw [Function.update_self, hconn, Option.map_some, Option.map_some, ht]
  · rw [Function.update_of_ne hother]

theorem txDispatch_idle {op : TxOp} :
    Triple Idle (txDispatch (env.shared cancel) op params) fun _ ↦ Idle := by
  apply idle_of_conns txDispatch_spec fun c ↦ txDispatch_frame watched_keptByAll
  intro mgr hmgr
  rw [txDispatch]
  split
  next => exact .pure fun w hw ↦ same_conns hmgr hw
  next id hid =>
    apply withConn_spec (fun w hw ↦ hw) (fun w hw ↦ same_conns hmgr hw)
    intro i s hfind
    have hconn := Manager.conn_of_find hfind
    refine (txOnConn_conn hmgr hconn).post fun answer w hw ↦ ?_
    rcases hw with ⟨-, hw⟩ | ⟨-, hw⟩
    · exact same_conns hmgr hw
    · exact ⟨hw.numbered, sets_connsOf hconn hw rfl⟩

theorem connOpen_idle : Triple Idle (handle env cancel (.connOpen params)) fun _ ↦ Idle := by
  refine ⟨fun w hw ↦ ?_⟩
  let w' := ((ipcMethodConnOpen (env.shared cancel) params).run w).2
  have hconsistent : Consistent w' := ipcMethodConnOpen_spec.run w hw.consistent
  have hwatched : Watched (connsOf w.manager) [] w' :=
    (ipcMethodConnOpen_frame watched_keptByAll).run w hw.watched
  have hconn : w'.manager = w.manager ∨ w'.manager.Numbered ∧ ∃ s : Slot,
      s.id = w.manager.nextId ∧
        w'.manager.conn = Function.update w.manager.conn w.manager.nextId (some s) :=
    (ipcMethodConnOpen_conn hw.numbered).run w rfl
  let moments := (w'.manager.conn w.manager.nextId).toList.map
    fun s ↦ Moment.opened s.id s.driver s.handle
  have hcalls : calls moments = [] := by
    simp [moments, calls, Option.toList]
  have hcancels : ∀ id driver handle, .cancelled id driver handle ∉ moments := by
    simp [moments]
  have hafter (hnumbered : w'.manager.Numbered)
      (hconns : conns (moments ++ w'.drivers.trace) = connsOf w'.manager) :
      Idle ((handle env cancel (.connOpen params)).run w).2 :=
    ⟨⟨hconsistent.holding, hconsistent.below⟩, hnumbered,
      watched_noteAll hwatched hcalls hcancels hconns⟩
  rcases hconn with hsame | ⟨hnumbered, s, hid, hupdate⟩
  · apply hafter (hsame ▸ hw.numbered)
    have hnone : w'.manager.conn w.manager.nextId = none := by
      rw [hsame, hw.numbered.conn_next le_rfl]
    rw [show moments = [] by simp [moments, hnone], List.nil_append, hwatched.conns, hsame]
  · apply hafter hnumbered
    have hsome : w'.manager.conn w.manager.nextId = some s := by
      rw [hupdate, Function.update_self]
    rw [show moments = [.opened s.id s.driver s.handle] by simp [moments, hsome],
      List.singleton_append, conns, hwatched.conns, hid]
    funext other
    rw [connsOf, hupdate]
    by_cases hother : other = w.manager.nextId
    · subst hother
      rw [Function.update_self, Function.update_self]
      rfl
    · rw [Function.update_of_ne hother, Function.update_of_ne hother]
      rfl

theorem conns_closing (ids : List ℕ) (trace : List Moment) (id : ℕ) :
    conns (ids.map .closing ++ trace) id = if id ∈ ids then none else conns trace id := by
  induction ids with
  | nil => rfl
  | cons first ids ih =>
    rw [List.map_cons, List.cons_append, conns]
    by_cases hid : id = first
    · subst hid
      rw [Function.update_self, if_pos (.head _)]
    · rw [Function.update_of_ne hid, ih]
      simp [hid]

/-- The connections `ids` are announced to go. -/
theorem watched_closing {c : ℕ → Option (Text × Handle)} (hw : Watched c [] w) (ids : List ℕ) :
    Watched (fun id ↦ if id ∈ ids then none else c id) []
      ((noteAll (ids.map .closing)).run w).2 := by
  apply watched_noteAll hw
  · simp [calls]
  · simp
  · funext id
    rw [conns_closing, hw.conns]

/-- Closing takes the connection away. -/
theorem ipcMethodConnClose_conns {env : Env σ} {mgr : Manager} {id : ℕ} {params : Option Json}
    (hmgr : mgr.Numbered) (hid : ipcConnId params = .ok id) :
    Triple (fun w ↦ w.manager = mgr) (ipcMethodConnClose env params)
      fun _ w ↦ w.manager.Numbered ∧ w.manager.conn = Function.update mgr.conn id none := by
  rw [ipcMethodConnClose, hid]
  have hdone (st : Status) : Triple
      (fun w : World σ ↦ w.manager.Numbered ∧ w.manager.conn = Function.update mgr.conn id none)
      (if st ≠ .ok then pure (.error unknownConn)
        else pure (.ok (.obj [("closed".toList, .bool true)])) : CoreM σ Answer)
      fun _ w ↦ w.manager.Numbered ∧ w.manager.conn = Function.update mgr.conn id none :=
    .ite (fun _ ↦ .pure fun w hw ↦ hw) fun _ ↦ .pure fun w hw ↦ hw
  refine Triple.bind ?_ hdone
  cases hconn : mgr.conn id with
  | none =>
    apply Triple.bind (getManager_spec fun w hw ↦ hw)
    intro m
    apply Triple.of_imp
    rintro rfl
    rw [findSlot_eq_none hconn]
    refine .pure fun w hw ↦ ?_
    rw [hw, ← hconn, Function.update_eq_self]
    exact ⟨hmgr, rfl⟩
  | some s =>
    exact (connManagerClose_conn hmgr hconn).post fun st w hw ↦ ⟨hw.2.numbered, hw.2.conn⟩

theorem connClose_idle : Triple Idle (handle env cancel (.connClose params)) fun _ ↦ Idle := by
  refine ⟨fun w hw ↦ ?_⟩
  cases hid : ipcConnId params with
  | error e =>
    have hrun : ((handle env cancel (.connClose params)).run w).2 = w := by
      simp only [handle, closings, hid, ipcMethodConnClose]
      rfl
    rwa [hrun]
  | ok id =>
    let w' := ((noteAll [.closing id]).run w).2
    let w'' := ((ipcMethodConnClose (env.shared cancel) params).run w').2
    have hrun : ((handle env cancel (.connClose params)).run w).2 = w'' := by
      simp only [handle, closings, hid, w'', w']
      rfl
    have hconsistent : Consistent w'' :=
      ipcMethodConnClose_spec.run w' ⟨hw.consistent.holding, hw.consistent.below⟩
    have hwatched : Watched (fun other ↦ if other ∈ [id] then none else connsOf w.manager other) []
        w'' :=
      (ipcMethodConnClose_frame watched_keptByAll).run w' (watched_closing hw.watched [id])
    obtain ⟨hnumbered, hconn⟩ : w''.manager.Numbered ∧
        w''.manager.conn = Function.update w.manager.conn id none :=
      (ipcMethodConnClose_conns hw.numbered hid).run w' rfl
    have hconns : connsOf w''.manager =
        fun other ↦ if other ∈ [id] then none else connsOf w.manager other := by
      funext other
      rw [connsOf, hconn]
      by_cases hother : other = id
      · subst hother
        rw [Function.update_self, if_pos (.head _), Option.map_none]
      · rw [Function.update_of_ne hother, if_neg (by simpa using hother), connsOf]
    rw [hrun]
    exact ⟨hconsistent, hnumbered, hconns ▸ hwatched⟩

theorem connManagerFree_idle : Triple Idle (handle env cancel .connManagerFree) fun _ ↦ Idle := by
  refine ⟨fun w hw ↦ ?_⟩
  let ids := w.manager.live.map Slot.id
  let w' := ((noteAll (ids.map .closing)).run w).2
  have hwatched : Watched (fun _ ↦ none) [] w' := by
    have hclosing := watched_closing hw.watched ids
    have hnone : (fun id ↦ if id ∈ ids then none else connsOf w.manager id) = fun _ ↦ none := by
      funext id
      split_ifs with hmem
      · rfl
      · cases hconn : w.manager.conn id with
        | none => rw [connsOf, hconn, Option.map_none]
        | some s =>
          obtain ⟨hlive, hsid⟩ := Manager.mem_live_of_conn hconn
          exact absurd (List.mem_map.2 ⟨s, hlive, hsid⟩) hmem
    rwa [hnone] at hclosing
  have hconsistent : Consistent w' := ⟨hw.consistent.holding, hw.consistent.below⟩
  let w'' := ((connManagerFree (env.shared cancel)).run w').2
  obtain ⟨hdone, hnew⟩ : Consistent w'' ∧ w''.manager = .new :=
    connManagerFree_spec.run w' hconsistent
  have hfree : Watched (fun _ ↦ none) [] w'' :=
    (connManagerFree_frame watched_keptByAll).run w' hwatched
  have hrun : ((handle env cancel .connManagerFree).run w).2 = w'' := by
    simp only [handle, w'', w', ids, List.map_map]
    rfl
  rw [hrun]
  refine ⟨hdone, ?_, ?_⟩
  · rw [hnew]
    exact Manager.numbered_new
  · rw [hnew]
    have hconns : connsOf Manager.new = fun _ ↦ none := by
      funext id
      rw [connsOf, Manager.conn_new, Option.map_none]
    rwa [hconns]

/-- What a request preserves, whatever the UI thread does meanwhile. -/
theorem handle_idle (op : Op) : Triple Idle (handle env cancel op) fun _ ↦ Idle := by
  cases op with
  | connOpen params => exact connOpen_idle
  | connClose params => exact connClose_idle
  | queryRun params => exact queryRun_idle.map
  | queryNext params => exact queryNext_idle.map
  | queryCursorClose params => exact queryCursorClose_idle.map
  | tx op params => exact txDispatch_idle.map
  | connManagerFree => exact connManagerFree_idle

theorem atomically_idle : Triple Idle (atomically env cancel id) fun _ ↦ Idle := by
  refine ⟨fun w hw ↦ ?_⟩
  obtain ⟨hguarded, hsame⟩ := interfere_guarded env cancel hw.watched.guarded
  refine ⟨⟨hw.consistent.holding, hw.consistent.below⟩, hw.numbered, ?_⟩
  exact ⟨hsame.calls.trans hw.watched.calls, ⟨hguarded.sound, hguarded.slots⟩,
    hsame.conns.trans hw.watched.conns, (congrArg _ hsame.slots).trans hw.watched.slots⟩

theorem runOps_idle (ops : List Op) : Triple Idle (runOps env cancel ops) fun _ ↦ Idle := by
  induction ops with
  | nil => exact Triple.thenReturn atomically_idle
  | cons op ops ih =>
    apply Triple.bind atomically_idle
    intro _
    apply Triple.bind (handle_idle op)
    intro answer
    apply Triple.bind ih
    intro answers
    exact .pure fun w hw ↦ hw

end Runs

theorem idle_initial (drivers : σ) (cancels : List (List ℕ)) :
    Idle (initialWorld (⟨drivers, List.replicate opSlots none, cancels, []⟩ : Shared σ)) := by
  have hslots : (List.replicate opSlots (none : Option OpSlot)).reduceOption = [] :=
    List.reduceOption_replicate_none
  refine ⟨initialWorld_consistent _, Manager.numbered_new, rfl, ⟨?_, ?_⟩, ?_, hslots⟩
  · intro after before id driver handle h
    simp [initialWorld] at h
  · intro op hop
    rw [initialWorld, hslots] at hop
    cases hop
  · funext id
    rw [initialWorld, connsOf, Manager.conn_new]
    rfl

/-- In every interleaving of the requests of the worker with cancels of the UI thread, the cancel hook
of a driver is called for an id only while a query runs on the connection with that id, and with the
handle of that connection, which was not disconnected; and behind every request no query is left in
the table. -/
theorem cancel_reaches_running_query (env : Env σ) (cancel : Text → Handle → σ → Status × σ)
    (drivers : σ) (cancels : List (List ℕ)) (ops : List Op) :
    let shared := (worldAfter env cancel drivers cancels ops).drivers
    (∀ after before id driver handle, shared.trace = after ++ .cancelled id driver handle :: before →
      conns before id = some (driver, handle) ∧ running before id = some (driver, handle) ∧
        Ledger.Open (calls before) handle) ∧
      ∀ slot ∈ shared.slots, slot = none := by
  intro shared
  have hidle : Idle (worldAfter env cancel drivers cancels ops) :=
    (runOps_idle ops).run _ (idle_initial drivers cancels)
  constructor
  · intro after before id driver handle hsplit
    have hcancel := hidle.watched.guarded.sound after before id driver handle hsplit
    exact ⟨hcancel.conn, hcancel.running, hcancel.isOpen⟩
  · intro slot hslot
    cases slot with
    | none => rfl
    | some op =>
      have hmem := List.reduceOption_mem_iff.2 hslot
      rw [hidle.watched.slots] at hmem
      cases hmem

end Squaero.Ipc.Tracked
