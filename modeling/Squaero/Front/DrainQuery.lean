import Squaero.Ipc.PagedRead

/-!
# A result read to its end

`parseQueryResult`, `runQuery`, `queryNext` and `drainQuery` of `frontend/src/utils/query.ts`, over
the handlers of the core. Between two requests of a drain the core may serve any other requests, and
those that run a statement with a cursor or page the connection move the one cursor it has.
-/

namespace Squaero.Front.DrainQuery

open Squaero.Lib Squaero.Core Squaero.Ipc

variable {σ : Type}

/-! ## Results -/

structure ResultSet where
  columns : List Json
  rows : List Json
  truncated : Bool
  cursor : Bool
  rowsAffected : ℚ
  deriving Repr

/-- The items of an array, none of anything else. -/
def itemsOf : Option Json → List Json
  | some (.arr items) => items
  | _ => []

/-- `Boolean(value)`. -/
def truthy : Option Json → Bool
  | none => false
  | some .null => false
  | some (.bool value) => value
  | some (.num value) => value ≠ 0
  | some (.str text) => text ≠ []
  | some (.arr _) => true
  | some (.obj _) => true

/-- An error is thrown, anything else read for what it has. -/
def parseQueryResult (res : Answer) : Except IpcError ResultSet :=
  res.map fun result ↦
    { columns := itemsOf (field (some result) "columns")
      rows := itemsOf (field (some result) "rows")
      truncated := truthy (field (some result) "truncated")
      cursor := truthy (field (some result) "cursor")
      rowsAffected :=
        match field (some result) "rowsAffected" with
        | some (.num count) => count
        | _ => 0 }

/-! ## Requests -/

def optional (name : String) (value : Option Json) : List (Text × Json) :=
  (value.map fun value ↦ (name.toList, value)).toList

/-- The parameters of `runQuery`. The core takes no cursor together with an offset. -/
def runRequest (connId sql : Text) (limit offset : Option ℚ) (cursor : Bool) : Json :=
  let offset := offset.filter (0 < ·)
  .obj ([("connId".toList, .str connId), ("sql".toList, .str sql)] ++
    optional "limit" (limit.map .num) ++ optional "offset" (offset.map .num) ++
    if cursor && offset.isNone then [("cursor".toList, .bool true)] else [])

/-- The parameters of `queryNext`. -/
def nextRequest (connId : Text) (limit : Option ℚ) : Json :=
  .obj ([("connId".toList, .str connId)] ++ optional "limit" (limit.map .num))

variable (env : Env σ)

def runQuery (connId sql : Text) (limit offset : Option ℚ) (cursor : Bool) :
    CoreM σ (Except IpcError ResultSet) := do
  let res ← ipcMethodQueryRun env (some (runRequest connId sql limit offset cursor))
  return parseQueryResult res

def queryNext (connId : Text) (limit : Option ℚ) : CoreM σ (Except IpcError ResultSet) := do
  let res ← ipcMethodQueryNext env (some (nextRequest connId limit))
  return parseQueryResult res

/-! ## The drain -/

/-- What happens before a request of a drain: the requests of others the core serves, and whether the
drain finds its signal aborted. -/
structure Step where
  others : List Op
  aborted : Bool

/-- The world the request of the drain meets. -/
def Step.meets (step : Step) (w : World σ) : World σ := ((runOps env step.others).run w).2

inductive Outcome
  | pending
  | rejected
  | resolved (result : ResultSet)
  deriving Repr

/-- A `query.next` of a drain: the world its last reply left, the one the request meets, and how many
rows the drain holds. -/
structure Gap (σ : Type) where
  left : World σ
  met : World σ
  read : ℕ

/-- What became of a drain, and whether it asks to close the cursor in the end. `gaps` and `replies`
record the worlds its requests met and left. -/
structure Drain (σ : Type) where
  outcome : Outcome
  closes : Bool
  gaps : List (Gap σ) := []
  replies : List (World σ) := []

/-- A reply in front of what follows it. -/
def Drain.after (gaps : List (Gap σ)) (left : World σ) (rest : Drain σ) : Drain σ :=
  { rest with gaps := gaps ++ rest.gaps, replies := left :: rest.replies }

def finished (first : ResultSet) (rows : List Json) (page : ResultSet) : Drain σ where
  outcome := .resolved { first with rows := rows, truncated := false, cursor := false }
  closes := page.cursor

/-- The request for the page behind `page`. -/
def nextPage (connId sql : Text) (pageSize : ℚ) (page : ResultSet) (read : ℕ) :
    CoreM σ (Except IpcError ResultSet) :=
  if page.cursor then queryNext env connId (some pageSize)
  else runQuery env connId sql (some pageSize) (some read) false

/-- The loop of `drainQuery`, with `rows` in hand and `page` the last of them. -/
def drainPages (connId sql : Text) (pageSize : ℚ) (first : ResultSet) :
    List Step → List Json → ResultSet → World σ → Drain σ
  | [], rows, page, _ =>
    if page.truncated then { outcome := .pending, closes := false } else finished first rows page
  | step :: steps, rows, page, w =>
    if page.truncated then
      if step.aborted then { outcome := .rejected, closes := page.cursor }
      else
        let met := step.meets env w
        let gaps := if page.cursor then [⟨w, met, rows.length⟩] else []
        let reply := (nextPage env connId sql pageSize page rows.length).run met
        match reply.1 with
        | .error _ => .after gaps reply.2 { outcome := .rejected, closes := page.cursor }
        | .ok next =>
          if next.rows = [] then .after gaps reply.2 (finished first rows next)
          else .after gaps reply.2
            (drainPages connId sql pageSize first steps (rows ++ next.rows) next reply.2)
    else finished first rows page

def drainQuery (connId sql : Text) (pageSize : ℚ) : List Step → World σ → Drain σ
  | [], _ => { outcome := .pending, closes := false }
  | step :: steps, w =>
    if step.aborted then { outcome := .rejected, closes := false }
    else
      let reply := (runQuery env connId sql (some pageSize) (some 0) true).run (step.meets env w)
      match reply.1 with
      | .error _ => .after [] reply.2 { outcome := .rejected, closes := false }
      | .ok first =>
        .after [] reply.2 (drainPages env connId sql pageSize first steps first.rows first reply.2)

/-! ## Rows of executions -/

variable (record : σ → ResultId → Option Execution)

/-- A driver ran `sql` with success, and `e` is what it began. -/
def Executed (sql : Text) (e : Execution) : Prop :=
  ∃ driver handle r s, (env.answer driver (.query handle sql r) s).1 = (.ok, true) ∧
    record (env.answer driver (.query handle sql r) s).2 r = some e

/-- An execution of `sql` that one of the worlds knows of. -/
def RanIn (sql : Text) (worlds : List (World σ)) (e : Execution) : Prop :=
  Executed env record sql e ∧ ∃ w ∈ worlds, ∃ r read, Recorded record r (e.at read) w

/-- The rows from number `read` on, each run of them the next rows of one of the executions `these`,
up to the end of one. -/
inductive Pieced (these : Execution → Prop) : ℕ → List Json → Prop
  | done {e : Execution} {read : ℕ} (he : these e) (hread : e.rows.length ≤ read) :
    Pieced these read []
  | piece {e : Execution} {read : ℕ} {rest : List Json} (limit : ℕ) (he : these e)
    (hrest : Pieced these (read + ((e.rows.drop read).take limit).length) rest) :
    Pieced these read (((e.rows.drop read).take limit).map rowJson ++ rest)

/-- Where `query.next` meets a cursor, it is the one the last reply left with no row fetched since, or
one on an execution of `sql` of which just the rows the drain holds were fetched. -/
def Undisturbed (connId sql : Text) (gap : Gap σ) : Prop :=
  ∀ id r, ipcConnIdParse connId = some id → gap.met.manager.cursorOf id = some r →
    gap.left.manager.cursorOf id = some r ∧
        record gap.met.drivers r = record gap.left.drivers r ∨
      ∃ e, Executed env record sql e ∧ Recorded record r (e.at gap.read) gap.met

variable {env record} {connId sql : Text} {pageSize : ℚ}

theorem Pieced.mono {these those : Execution → Prop} (h : ∀ e, these e → those e) {read : ℕ}
    {rows : List Json} (hrows : Pieced these read rows) : Pieced those read rows := by
  induction hrows with
  | done he hread => exact .done (h _ he) hread
  | piece limit he _ ih => exact .piece limit (h _ he) ih

theorem RanIn.mono {worlds more : List (World σ)} (h : ∀ w ∈ worlds, w ∈ more) {e : Execution}
    (he : RanIn env record sql worlds e) : RanIn env record sql more e := by
  obtain ⟨hran, w, hw, r, read, hrecord⟩ := he
  exact ⟨hran, w, h w hw, r, read, hrecord⟩

theorem runs_executed (hc : Contract env record) (driver sql : Text) :
    Runs env record driver sql (Executed env record sql) := by
  intro handle r s hok
  obtain ⟨e, hrecord, -⟩ := hc.query driver handle sql r s hok
  exact ⟨e, ⟨driver, handle, r, s, hok, hrecord⟩, hrecord⟩

theorem Executed.fetched (hc : Contract env record) {e : Execution}
    (he : Executed env record sql e) : e.fetched = 0 := by
  obtain ⟨driver, handle, r, s, hok, hrecord⟩ := he
  obtain ⟨e', hrecord', -, hfetched⟩ := hc.query driver handle sql r s hok
  cases hrecord.symm.trans hrecord'
  exact hfetched

/-! ## One reply -/

variable (env record connId sql) in
/-- Behind `read` rows: the page is the last one of its execution, or the cursor of the connection
stands there. -/
def Stands (page : ResultSet) (read : ℕ) (w : World σ) : Prop :=
  ∃ e r, Executed env record sql e ∧ Recorded record r (e.at read) w ∧
    (page.truncated = false ∧ e.rows.length ≤ read ∨
      page.truncated = true ∧ page.cursor = true ∧
        ∀ id, ipcConnIdParse connId = some id → w.manager.cursorOf id = some r)

theorem parseQueryResult_page (res : Result) (isOpen : Bool) :
    parseQueryResult (.ok (ipcPageToJson res isOpen)) =
      .ok { columns := res.columns.map columnJson, rows := res.rows.map rowJson,
            truncated := res.truncated, cursor := isOpen, rowsAffected := res.rowsAffected } := by
  cases isOpen <;> rfl

/-- A page read through the cursor is a piece of its execution, and the drain stands behind it. -/
theorem CursorAnswer.piece {id read maxRows : ℕ} {driver : Text} {e : Execution} {answer : Answer}
    {w : World σ} {page : ResultSet} (hid : ipcConnIdParse connId = some id)
    (he : Executed env record sql e) (hpage : parseQueryResult answer = .ok page)
    (h : CursorAnswer env record id driver (e.at read) maxRows answer w) :
    page.rows = ((e.rows.drop read).take maxRows).map rowJson ∧
      (∃ r n, Recorded record r (e.at n) w) ∧
      Stands env record connId sql page (read + page.rows.length) w := by
  cases answer with
  | error err => cases hpage
  | ok json =>
    obtain ⟨res, rowsAffected, n, rfl, hres, rfl, ⟨r, hrecord⟩, i, s, hfind, -, hstands⟩ := h
    rw [parseQueryResult_page] at hpage
    cases hpage
    have hrows : res.rows = (e.rows.drop read).take maxRows := hres.rows
    have hread : ((e.at read).at ((e.at read).fetched + ((e.at read).window 0 maxRows).length)) =
        e.at (read + (res.rows.map rowJson).length) := by
      rw [List.length_map, hrows]
      rfl
    rw [hread] at hrecord hstands
    refine ⟨by rw [← hrows], ⟨r, _, hrecord⟩, ?_⟩
    by_cases hmore : res.truncated = true
    · rw [if_pos hmore] at hstands
      obtain ⟨r', hcursor, hrecord'⟩ := hstands
      refine ⟨e, r', he, hrecord', .inr ⟨hmore, hmore, fun id' hid' ↦ ?_⟩⟩
      cases hid.symm.trans hid'
      rw [Manager.cursorOf, hfind]
      exact hcursor
    · have hlast : ¬ maxRows ≤ (e.rows.drop read).length := fun hle ↦ hmore (hres.truncated.2 hle)
      refine ⟨e, r, he, hrecord, .inl ⟨Bool.eq_false_iff.2 hmore, ?_⟩⟩
      rw [List.length_map, hrows, List.length_take, List.length_drop]
      rw [List.length_drop] at hlast
      omega

theorem connId_of_ok {members : List (Text × Json)} {id : ℕ}
    (h : ipcConnId (some (.obj (("connId".toList, .str connId) :: members))) = .ok id) :
    ipcConnIdParse connId = some id := by
  have hfield : field (some (.obj (("connId".toList, .str connId) :: members))) "connId" = some (.str connId) := rfl
  rw [ipcConnId, hfield] at h
  dsimp only at h
  cases hid : ipcConnIdParse connId with
  | none =>
    rw [hid] at h
    cases h
  | some id =>
    rw [hid] at h
    cases h
    rfl

theorem withConn_closed {id : ℕ} {f : Text → Handle → CoreM σ Answer} {w : World σ}
    (hfind : w.manager.findSlot id = none) : ∃ err, ((withConn id f).run w).1 = .error err := by
  have hanswer : Triple (fun v ↦ v = w) (withConn id f) fun answer _ ↦ ∃ err, answer = .error err := by
    apply withConn_spec (fun v hv ↦ congrArg World.manager hv) fun v hv ↦ ⟨unknownConn, rfl⟩
    intro i s hslot
    rw [hfind] at hslot
    cases hslot
  exact hanswer.run w rfl

theorem queryNext_piece (hc : Contract env record) {limit : Option ℚ} {page next : ResultSet}
    {read : ℕ} {w met : World σ} (hstands : Stands env record connId sql page read w)
    (hmore : page.truncated = true) (hgap : Undisturbed env record connId sql ⟨w, met, read⟩)
    (hreply : ((queryNext env connId limit).run met).1 = .ok next) :
    ∃ e maxRows, Executed env record sql e ∧ 0 < maxRows ∧
      next.rows = ((e.rows.drop read).take maxRows).map rowJson ∧
      (∃ r n, Recorded record r (e.at n) ((queryNext env connId limit).run met).2) ∧
      Stands env record connId sql next (read + next.rows.length)
        ((queryNext env connId limit).run met).2 := by
  let params := some (nextRequest connId limit)
  have hparse : parseQueryResult ((ipcMethodQueryNext env params).run met).1 = .ok next := hreply
  cases hparams : queryNextParams params with
  | error err =>
    rw [ipcMethodQueryNext, hparams] at hparse
    cases hparse
  | ok p =>
    have hid : ipcConnIdParse connId = some p.id := connId_of_ok (queryNextParams_ok hparams).1
    cases hfind : met.manager.findSlot p.id with
    | none =>
      rw [ipcMethodQueryNext, hparams] at hparse
      obtain ⟨err, hgone⟩ := withConn_closed (f := fun driver handle ↦ Ipc.nextPage env driver handle p) hfind
      rw [hgone] at hparse
      cases hparse
    | some slot =>
      obtain ⟨i, s⟩ := slot
      cases hcursor : s.cursor with
      | none =>
        have hanswer : Triple (CursorOn record p.id s.driver none) (ipcMethodQueryNext env params)
            fun answer w ↦ answer = .error noCursor ∧ CursorOn record p.id s.driver none w :=
          queryNext_noCursor hparams
        rw [(hanswer.run met ⟨i, s, hfind, rfl, hcursor⟩).1] at hparse
        cases hparse
      | some r =>
        have hcursorOf : met.manager.cursorOf p.id = some r := by
          rw [Manager.cursorOf, hfind]
          exact hcursor
        obtain ⟨e, he, hrecord⟩ : ∃ e, Executed env record sql e ∧
            Recorded record r (e.at read) met := by
          rcases hgap p.id r hid hcursorOf with ⟨hleft, hsame⟩ | hfits
          · obtain ⟨e, r', he, hrecord, hlast | ⟨-, -, hcursorLeft⟩⟩ := hstands
            · rw [hlast.1] at hmore
              cases hmore
            · cases (hcursorLeft p.id hid).symm.trans hleft
              exact ⟨e, he, hsame.trans hrecord⟩
          · exact hfits
        have hanswer := (queryNext_answers hc hparams).run met
          ⟨i, s, hfind, rfl, r, hcursor, hrecord⟩
        exact ⟨e, p.limit, he, ipcQueryLimit_pos (queryNextParams_ok hparams).2,
          CursorAnswer.piece hid he hparse hanswer⟩

theorem field_cursor_runRequest (limit : Option ℚ) :
    field (some (runRequest connId sql limit (some 0) true)) "cursor" = some (.bool true) := by
  have hnone : (some (0 : ℚ)).filter (0 < ·) = none := rfl
  cases limit with
  | none => simp only [runRequest, hnone]; rfl
  | some limit => simp only [runRequest, hnone]; rfl

/-- The first page is a piece of a new execution. -/
theorem runQuery_piece (hc : Contract env record) {limit : Option ℚ} {first : ResultSet}
    {met : World σ}
    (hreply : ((runQuery env connId sql limit (some 0) true).run met).1 = .ok first) :
    ∃ e maxRows, Executed env record sql e ∧ 0 < maxRows ∧
      first.rows = ((e.rows.drop 0).take maxRows).map rowJson ∧
      (∃ r n, Recorded record r (e.at n) ((runQuery env connId sql limit (some 0) true).run met).2) ∧
      Stands env record connId sql first (0 + first.rows.length)
        ((runQuery env connId sql limit (some 0) true).run met).2 := by
  let params := some (runRequest connId sql limit (some 0) true)
  have hparse : parseQueryResult ((ipcMethodQueryRun env params).run met).1 = .ok first := hreply
  cases hparams : queryRunParams params with
  | error err =>
    rw [ipcMethodQueryRun, hparams] at hparse
    cases hparse
  | ok p =>
    obtain ⟨hconn, hsql, hlimit, -, hkeep, -⟩ := queryRunParams_ok hparams
    have hsql : p.sql = sql := by
      cases hsql
      rfl
    have hkeep : p.keepCursor = true := by
      rw [ipcQueryCursor, field_cursor_runRequest] at hkeep
      exact (Except.ok.inj hkeep).symm
    have hid : ipcConnIdParse connId = some p.id := connId_of_ok hconn
    cases hfind : met.manager.findSlot p.id with
    | none =>
      rw [ipcMethodQueryRun, hparams] at hparse
      obtain ⟨err, hgone⟩ := withConn_closed (f := fun driver handle ↦
        if p.keepCursor then runCursor env driver handle p else runPlain env driver handle p) hfind
      rw [hgone] at hparse
      cases hparse
    | some slot =>
      obtain ⟨i, s⟩ := slot
      have hanswer := (queryRun_cursor_answers hc hparams hkeep (runs_executed hc s.driver p.sql)).run
        met ⟨i, s, hfind, rfl⟩
      rcases hanswer with ⟨⟨⟨err, herror⟩, -⟩, -⟩ | ⟨e, he, hpage⟩
      · rw [herror] at hparse
        cases hparse
      · rw [hsql] at he
        have hstart : e.at 0 = e := by
          rw [← he.fetched hc]
          rfl
        rw [← hstart] at hpage
        exact ⟨e, p.limit, he, ipcQueryLimit_pos hlimit, CursorAnswer.piece hid he hparse hpage⟩

/-! ## The whole drain -/

theorem Stands.ranIn {page : ResultSet} {read : ℕ} {w : World σ}
    (h : Stands env record connId sql page read w) (hlast : page.truncated = false)
    (worlds : List (World σ)) : Pieced (RanIn env record sql (w :: worlds)) read [] := by
  obtain ⟨e, r, he, hrecord, ⟨-, hread⟩ | ⟨hmore, -⟩⟩ := h
  · exact .done ⟨he, w, List.mem_cons_self, r, read, hrecord⟩ hread
  · rw [hlast] at hmore
    cases hmore

theorem Stands.cursor {page : ResultSet} {read : ℕ} {w : World σ}
    (h : Stands env record connId sql page read w) (hmore : page.truncated = true) :
    page.cursor = true := by
  obtain ⟨e, r, he, hrecord, ⟨hlast, -⟩ | ⟨-, hcursor, -⟩⟩ := h
  · rw [hmore] at hlast
    cases hlast
  · exact hcursor

theorem drainPages_last {first page : ResultSet} {rows : List Json} {w : World σ}
    (hlast : page.truncated = false) (steps : List Step) :
    drainPages env connId sql pageSize first steps rows page w = finished first rows page := by
  cases steps with
  | nil => rw [drainPages, hlast, if_neg Bool.false_ne_true]
  | cons step steps => rw [drainPages, hlast, if_neg Bool.false_ne_true]

/-- What follows a reply to `query.next`. -/
theorem drainPages_next {first page : ResultSet} {step : Step} {steps : List Step} {rows : List Json}
    {w left : World σ} {reply : Except IpcError ResultSet} (hmore : page.truncated = true)
    (hcursor : page.cursor = true) (hgoes : step.aborted = false)
    (hreply : (queryNext env connId (some pageSize)).run (step.meets env w) = (reply, left)) :
    drainPages env connId sql pageSize first (step :: steps) rows page w =
      .after [⟨w, step.meets env w, rows.length⟩] left
        (match reply with
        | .error _ => { outcome := .rejected, closes := true }
        | .ok next =>
          if next.rows = [] then finished first rows next
          else drainPages env connId sql pageSize first steps (rows ++ next.rows) next left) := by
  rw [drainPages, if_pos hmore, hgoes, if_neg Bool.false_ne_true]
  simp only [nextPage, hcursor, if_true, hreply]
  cases reply with
  | error err => rfl
  | ok next =>
    by_cases hempty : next.rows = []
    · simp only [if_pos hempty]
    · simp only [if_neg hempty]

/-- From where the drain stands on, the rows it adds are pieces of executions. -/
theorem drainPages_pieced (hc : Contract env record) {first result : ResultSet} {steps : List Step}
    {rows : List Json} {page : ResultSet} {w : World σ}
    (hstands : Stands env record connId sql page rows.length w)
    (hgaps : ∀ gap ∈ (drainPages env connId sql pageSize first steps rows page w).gaps,
      Undisturbed env record connId sql gap)
    (hresult : (drainPages env connId sql pageSize first steps rows page w).outcome = .resolved result) :
    ∃ rest, result.rows = rows ++ rest ∧
      Pieced (RanIn env record sql
        (w :: (drainPages env connId sql pageSize first steps rows page w).replies)) rows.length rest := by
  induction steps generalizing rows page w with
  | nil =>
    cases hmore : page.truncated with
    | true =>
      rw [drainPages, if_pos hmore] at hresult
      cases hresult
    | false =>
      rw [drainPages_last hmore] at hresult
      cases hresult
      exact ⟨[], (List.append_nil _).symm, hstands.ranIn hmore _⟩
  | cons step steps ih =>
    cases hmore : page.truncated with
    | false =>
      rw [drainPages_last hmore] at hresult
      cases hresult
      exact ⟨[], (List.append_nil _).symm, hstands.ranIn hmore _⟩
    | true =>
      cases hgoes : step.aborted with
      | true =>
        rw [drainPages, if_pos hmore, if_pos hgoes] at hresult
        cases hresult
      | false =>
        rcases hrun : (queryNext env connId (some pageSize)).run (step.meets env w) with ⟨reply, left⟩
        rw [drainPages_next hmore (hstands.cursor hmore) hgoes hrun] at hgaps hresult ⊢
        cases reply with
        | error err => cases hresult
        | ok next =>
          have hpiece := queryNext_piece hc hstands hmore (hgaps _ List.mem_cons_self)
            (congrArg Prod.fst hrun)
          rw [hrun] at hpiece
          obtain ⟨e, maxRows, he, hpos, hrows, ⟨r, n, hrecord⟩, hnext⟩ := hpiece
          by_cases hempty : next.rows = []
          · simp only [if_pos hempty] at hresult ⊢
            cases hresult
            have hread : e.rows.length ≤ rows.length := by
              rw [hempty, eq_comm, List.map_eq_nil_iff, List.take_eq_nil_iff] at hrows
              exact List.drop_eq_nil_iff.1 (hrows.resolve_left hpos.ne')
            refine ⟨[], (List.append_nil _).symm, .done ⟨he, left, ?_, r, n, hrecord⟩ hread⟩
            exact .tail _ (.head _)
          · simp only [if_neg hempty] at hgaps hresult ⊢
            have hlength : rows.length + next.rows.length = (rows ++ next.rows).length :=
              List.length_append.symm
            rw [hlength] at hnext
            obtain ⟨rest, hrest, hpieced⟩ := ih hnext (fun gap hgap ↦ hgaps gap (.tail _ hgap)) hresult
            refine ⟨next.rows ++ rest, by rw [hrest, List.append_assoc], ?_⟩
            rw [← hlength] at hpieced
            rw [hrows] at hpieced ⊢
            rw [List.length_map] at hpieced
            refine .piece maxRows ⟨he, left, .tail _ (.head _), r, n, hrecord⟩ (hpieced.mono ?_)
            exact fun e' he' ↦ he'.mono fun v hv ↦ .tail _ hv

/-- Rows of a drain that nobody disturbed are rows of executions of its statement, in order and none
left out. -/
theorem drainQuery_pieced (hc : Contract env record) {steps : List Step} {w : World σ}
    {result : ResultSet}
    (hgaps : ∀ gap ∈ (drainQuery env connId sql pageSize steps w).gaps,
      Undisturbed env record connId sql gap)
    (hresult : (drainQuery env connId sql pageSize steps w).outcome = .resolved result) :
    Pieced (RanIn env record sql (drainQuery env connId sql pageSize steps w).replies) 0
      result.rows := by
  cases steps with
  | nil => cases hresult
  | cons step steps =>
    cases hgoes : step.aborted with
    | true =>
      rw [drainQuery, if_pos hgoes] at hresult
      cases hresult
    | false =>
      rw [drainQuery, hgoes, if_neg Bool.false_ne_true] at hgaps hresult ⊢
      rcases hrun : (runQuery env connId sql (some pageSize) (some 0) true).run (step.meets env w)
        with ⟨reply, left⟩
      simp only [hrun] at hgaps hresult ⊢
      cases reply with
      | error err => cases hresult
      | ok first =>
        have hpiece := runQuery_piece hc (congrArg Prod.fst hrun)
        rw [hrun] at hpiece
        obtain ⟨e, maxRows, he, -, hrows, ⟨r, n, hrecord⟩, hfirst⟩ := hpiece
        rw [Nat.zero_add] at hfirst
        obtain ⟨rest, hrest, hpieced⟩ := drainPages_pieced hc hfirst hgaps hresult
        change Pieced (RanIn env record sql (left :: (drainPages env connId sql pageSize first steps
          first.rows first left).replies)) 0 result.rows
        rw [hrest]
        generalize (drainPages env connId sql pageSize first steps first.rows first left).replies =
          replies at hpieced ⊢
        rw [hrows] at hpieced ⊢
        refine .piece maxRows ⟨he, left, .head _, r, n, hrecord⟩ ?_
        rw [List.length_map] at hpieced
        rw [Nat.zero_add]
        exact hpieced

/-! ## Plain runs in between -/

/-- A run without a cursor. -/
def IsPlainRun : Op → Prop
  | .queryRun params => IsPlain params
  | _ => False

theorem runOps_plain_kept (hc : Contract env record) {mgr : Manager} {n : ℕ}
    {old : ResultId → Option Execution} {others : List Op} (hplain : ∀ op ∈ others, IsPlainRun op) :
    Triple (Core.Kept record mgr n old) (runOps env others) fun _ ↦ Core.Kept record mgr n old := by
  induction others with
  | nil => exact .pure fun w hw ↦ hw
  | cons op others ih =>
    obtain ⟨hop, hothers⟩ := List.forall_mem_cons.1 hplain
    cases op with
    | queryRun params =>
      apply Triple.bind (Q := fun _ ↦ Core.Kept record mgr n old)
      · exact ⟨fun w hw ↦ (queryRun_plain_kept hc hop).run w hw⟩
      intro answer
      exact .bind (ih hothers) fun answers ↦ .pure fun w hw ↦ hw
    | _ => exact hop.elim

theorem undisturbed_of_plain (hc : Contract env record) {w : World σ} (hw : Consistent w) {step : Step}
    (hplain : ∀ op ∈ step.others, IsPlainRun op) (read : ℕ) :
    Undisturbed env record connId sql ⟨w, step.meets env w, read⟩ := by
  have hkept := (runOps_plain_kept hc hplain).run w
    ⟨rfl, le_rfl, fun c _ ↦ (rfl : record w.drivers c = record w.drivers c)⟩
  intro id r hid hcursor
  have hcursor : w.manager.cursorOf id = some r := by
    rw [← hkept.manager]
    exact hcursor
  have hgiven := (hw.holding.live_iff r).2 (.inr (Manager.mem_cursors hcursor))
  exact .inl ⟨hcursor, hkept.record r (hw.below.given r hgiven.1)⟩

theorem nextPage_consistent {page : ResultSet} {read : ℕ} {w : World σ} (hw : Consistent w) :
    Consistent ((nextPage env connId sql pageSize page read).run w).2 := by
  rw [nextPage]
  split
  · exact (consistent_of_told fun _ _ ↦ ipcMethodQueryNext_spec).run w hw
  · exact (consistent_of_told fun _ _ ↦ ipcMethodQueryRun_spec).run w hw

theorem Step.meets_consistent {w : World σ} (hw : Consistent w) (step : Step) :
    Consistent (step.meets env w) :=
  (runOps_spec step.others).run w hw

/-- Plain runs do not disturb a drain. -/
theorem drainPages_undisturbed (hc : Contract env record) {first page : ResultSet}
    {steps : List Step} {rows : List Json} {w : World σ} (hw : Consistent w)
    (hplain : ∀ step ∈ steps, ∀ op ∈ step.others, IsPlainRun op) :
    ∀ gap ∈ (drainPages env connId sql pageSize first steps rows page w).gaps,
      Undisturbed env record connId sql gap := by
  induction steps generalizing rows page w with
  | nil =>
    rw [drainPages]
    split
    · exact List.forall_mem_nil _
    · exact List.forall_mem_nil _
  | cons step steps ih =>
    obtain ⟨hstep, hsteps⟩ := List.forall_mem_cons.1 hplain
    rw [drainPages]
    split
    swap
    · exact List.forall_mem_nil _
    split
    · exact List.forall_mem_nil _
    have hgaps : ∀ gap ∈ (if page.cursor = true then [(⟨w, step.meets env w, rows.length⟩ : Gap σ)]
        else []), Undisturbed env record connId sql gap := by
      split
      · exact List.forall_mem_singleton.2 (undisturbed_of_plain hc hw hstep rows.length)
      · exact List.forall_mem_nil _
    have hleft : Consistent
        ((nextPage env connId sql pageSize page rows.length).run (step.meets env w)).2 :=
      nextPage_consistent (step.meets_consistent hw)
    rcases hrun : (nextPage env connId sql pageSize page rows.length).run (step.meets env w)
      with ⟨reply, left⟩
    rw [hrun] at hleft
    simp only [hrun]
    cases reply with
    | error err => exact List.forall_mem_append.2 ⟨hgaps, List.forall_mem_nil _⟩
    | ok next =>
      by_cases hempty : next.rows = []
      · simp only [if_pos hempty]
        exact List.forall_mem_append.2 ⟨hgaps, List.forall_mem_nil _⟩
      · simp only [if_neg hempty]
        exact List.forall_mem_append.2 ⟨hgaps, ih hleft hsteps⟩

theorem drainQuery_undisturbed (hc : Contract env record) {steps : List Step} {w : World σ}
    (hw : Consistent w) (hplain : ∀ step ∈ steps, ∀ op ∈ step.others, IsPlainRun op) :
    ∀ gap ∈ (drainQuery env connId sql pageSize steps w).gaps,
      Undisturbed env record connId sql gap := by
  cases steps with
  | nil => exact List.forall_mem_nil _
  | cons step steps =>
    have hleft : Consistent
        ((runQuery env connId sql (some pageSize) (some 0) true).run (step.meets env w)).2 :=
      (consistent_of_told fun _ _ ↦ ipcMethodQueryRun_spec).run _ (step.meets_consistent hw)
    rw [drainQuery]
    split
    · exact List.forall_mem_nil _
    rcases hrun : (runQuery env connId sql (some pageSize) (some 0) true).run (step.meets env w)
      with ⟨reply, left⟩
    rw [hrun] at hleft
    cases reply with
    | error err => exact List.forall_mem_nil _
    | ok first => exact drainPages_undisturbed hc hleft (List.forall_mem_cons.1 hplain).2

/-! ## Two tables -/

/-- Three rows of one cell. -/
def cells (cell : Text) : Execution where
  sql := []
  columns := [⟨none, .text⟩]
  rows := List.replicate 3 [some cell]
  fetched := 0
  columns_le := by decide
  width row hrow := by
    rw [List.eq_of_mem_replicate hrow]
    rfl
  rows_nil h := by cases h

def twoTables : Tables := fun sql ↦
  if sql = ['a'] then some (cells ['a']) else if sql = ['b'] then some (cells ['b']) else none

/-- A connection is open. -/
def opened : World Records := worldAfter (tableEnv twoTables) (fun _ ↦ none) openOne

/-- Between the first two pages somebody else runs `b`, with a cursor or without. -/
def runsBetween (cursor : Bool) : List Step :=
  [⟨[], false⟩, ⟨[.queryRun (some (runRequest ['c', '1'] ['b'] (some 1) none cursor))], false⟩,
    ⟨[], false⟩]

/-- A client drains `a`, two rows a page. -/
def drainA (cursor : Bool) : Drain Records :=
  drainQuery (tableEnv twoTables) ['c', '1'] ['a'] 2 (runsBetween cursor) opened

/-- The cells of a row. -/
def rowTexts : Json → List Text
  | .arr items => items.filterMap fun
    | .str text => some text
    | _ => none
  | _ => []

def Outcome.texts : Outcome → Option (List (List Text))
  | .resolved result => some (result.rows.map rowTexts)
  | _ => none

theorem resolved_of_texts {outcome : Outcome} {texts : List (List Text)} (h : outcome.texts = some texts) :
    ∃ result, outcome = .resolved result ∧ result.rows.map rowTexts = texts := by
  cases outcome with
  | resolved result => exact ⟨result, rfl, Option.some.inj h⟩
  | pending => cases h
  | rejected => cases h

/-- What holds of each row of the executions holds of each row pieced together from them. -/
theorem Pieced.forall_mem {these : Execution → Prop} {P : Json → Prop}
    (h : ∀ e, these e → ∀ row ∈ e.rows, P (rowJson row)) {read : ℕ} {rows : List Json}
    (hrows : Pieced these read rows) : ∀ row ∈ rows, P row := by
  induction hrows with
  | done he hread => exact List.forall_mem_nil _
  | piece limit he _ ih =>
    refine List.forall_mem_append.2 ⟨?_, ih⟩
    intro row hrow
    obtain ⟨cells, hcells, rfl⟩ := List.mem_map.1 hrow
    exact h _ he cells (List.mem_of_mem_drop (List.mem_of_mem_take hcells))

theorem executed_a {e : Execution} (he : Executed (tableEnv twoTables) tableRecord ['a'] e) :
    e = (cells ['a']).named ['a'] := by
  obtain ⟨driver, handle, r, s, hok, hrecord⟩ := he
  have htable : twoTables ['a'] = some (cells ['a']) := if_pos rfl
  obtain ⟨e', rfl, hrecord'⟩ := (tableEnv_runs htable driver).2 handle r s hok
  exact Option.some.inj (hrecord.symm.trans hrecord')

/-- The cursor of `b` took the place of the one of `a`, and the drain goes on with rows of `b`. -/
theorem drainQuery_mixes : ∃ result, (drainA true).outcome = .resolved result ∧
    ¬ Pieced (RanIn (tableEnv twoTables) tableRecord ['a'] (drainA true).replies) 0 result.rows := by
  have htexts : (drainA true).outcome.texts = some [[['a']], [['a']], [['b']], [['b']]] := by
    decide +kernel
  obtain ⟨result, hresult, hrows⟩ := resolved_of_texts htexts
  refine ⟨result, hresult, fun hpieced ↦ ?_⟩
  have hall : ∀ row ∈ result.rows, rowTexts row = [['a']] := by
    refine hpieced.forall_mem fun e he row hrow ↦ ?_
    rw [executed_a he.1] at hrow
    cases List.eq_of_mem_replicate hrow
    rfl
  have hb : [['b']] ∈ result.rows.map rowTexts := by
    rw [hrows]
    decide
  obtain ⟨row, hrow, htext⟩ := List.mem_map.1 hb
  rw [hall row hrow] at htext
  revert htext
  decide

theorem drainQuery_pieced_a : ∃ result, (drainA false).outcome = .resolved result ∧
    Pieced (RanIn (tableEnv twoTables) tableRecord ['a'] (drainA false).replies) 0 result.rows := by
  have htexts : (drainA false).outcome.texts = some [[['a']], [['a']], [['a']]] := by
    decide +kernel
  obtain ⟨result, hresult, -⟩ := resolved_of_texts htexts
  have hparams : queryRunParams (some (runRequest ['c', '1'] ['b'] (some 1) none false)) =
      .ok ⟨1, ['b'], 1, 0, false⟩ := by
    decide +kernel
  have hb : IsPlain (some (runRequest ['c', '1'] ['b'] (some 1) none false)) := by
    intro p hp
    cases hparams.symm.trans hp
    rfl
  have hplain : ∀ step ∈ runsBetween false, ∀ op ∈ step.others, IsPlainRun op := by
    simp [runsBetween, IsPlainRun, hb]
  exact ⟨result, hresult, drainQuery_pieced tableEnv_contract
    (drainQuery_undisturbed tableEnv_contract (worldAfter_consistent _ _ _) hplain) hresult⟩

end Squaero.Front.DrainQuery
