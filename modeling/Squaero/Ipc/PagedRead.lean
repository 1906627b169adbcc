import Squaero.Core.TableDriver
import Squaero.Ipc.Paging
import Squaero.Lib.Draw

/-!
# Reading a result page by page

A client runs a statement with a cursor and then asks for page after page, with any number of plain
runs in between, its own or those of others. The pages are draws from the rows of one execution.
-/

namespace Squaero.Ipc

open Squaero.Lib Squaero.Core

variable {σ : Type} {env : Env σ} {record : σ → ResultId → Option Execution}

/-! ## The client -/

/-- Plain runs on any connection, and then the next page of the connection `id`. -/
structure Turn (id : ℕ) where
  plain : List (Option Json)
  next : Option Json
  limit : ℕ
  isPlain : ∀ params ∈ plain, IsPlain params
  asks : queryNextParams next = .ok ⟨id, limit⟩

variable (env) in
def runPlains : List (Option Json) → CoreM σ Unit
  | [] => return ()
  | params :: rest => do
    let _ ← ipcMethodQueryRun env params
    runPlains rest

variable {id : ℕ}

variable (env) in
def runTurns : List (Turn id) → CoreM σ (List Answer)
  | [] => return []
  | turn :: turns => do
    runPlains env turn.plain
    let answer ← ipcMethodQueryNext env turn.next
    let answers ← runTurns turns
    return answer :: answers

variable (env) in
/-- The answers to a cursor run and the turns behind it. -/
def readPages (first : Option Json) (turns : List (Turn id)) : CoreM σ (List Answer) := do
  let answer ← ipcMethodQueryRun env first
  let answers ← runTurns env turns
  return answer :: answers

/-! ## What the client sees -/

/-- A draw as an answer: a page with its cursor, or that there is no cursor any more. -/
def Shows (columns : List Column) : Option (List Row × Bool) → Answer → Prop
  | none, answer => answer = .error noCursor
  | some (rows, more), answer => ∃ res, answer = .ok (ipcPageToJson res more) ∧
    res.columns = columns ∧ res.rows = rows ∧ res.truncated = more

/-- The rows behind an offset, up to a limit, and whether a row is left behind those. -/
def ShowsRange (columns : List Column) (rows : List Row) (offset limit : ℕ) (answer : Answer) :
    Prop :=
  ∃ res, answer = .ok (ipcPageToJson res false) ∧ res.columns = columns ∧
    res.rows = (rows.drop offset).take limit ∧ (res.truncated = true ↔ offset + limit < rows.length)

section Reading

variable {driver : Text} {e : Execution} {cursor : Option Execution}

/-- A page of a driver that does not fail, and not too large. -/
theorem CursorAnswer.shows {maxRows : ℕ} {answer : Answer} {w : World σ}
    (hnever : NeverFails env record) (hsize : (e.window 0 maxRows).length ≤ maxPageRows)
    (h : CursorAnswer env record id driver e maxRows answer w) :
    ∃ next, CursorOn record id driver next w ∧
      (Shows e.columns (some (e.window 0 maxRows, true)) answer ∧ maxRows ≤ (e.left 0).length ∧
          next = some (e.at (e.fetched + maxRows)) ∨
        Shows e.columns (some (e.left 0, false)) answer ∧ ¬ maxRows ≤ (e.left 0).length ∧
          next = none) := by
  cases answer with
  | error err =>
    rcases h.1 with hlarge | hfails
    · omega
    · exact absurd hnever hfails
  | ok page =>
    obtain ⟨res, rowsAffected, n, rfl, hpage, hn, -, hcursor⟩ := h
    have hrows : res.rows = e.window 0 maxRows := hpage.rows
    have hfull : res.truncated = true ↔ maxRows ≤ (e.left 0).length := hpage.truncated
    refine ⟨_, hcursor, ?_⟩
    by_cases htruncated : res.truncated = true
    · have hle := hfull.1 htruncated
      have hlength : (e.window 0 maxRows).length = maxRows := by
        rw [Execution.window, List.length_take]
        omega
      refine .inl ⟨⟨res, by rw [htruncated], hpage.columns, hrows, htruncated⟩, hle, ?_⟩
      rw [if_pos htruncated, hn, hlength]
    · have hlt : ¬ maxRows ≤ (e.left 0).length := fun hle ↦ htruncated (hfull.2 hle)
      have hfalse : res.truncated = false := Bool.eq_false_iff.2 htruncated
      refine .inr ⟨⟨res, by rw [hfalse], hpage.columns, ?_, hfalse⟩, hlt, if_neg htruncated⟩
      rw [hrows, Execution.window, List.take_of_length_le (by omega)]

theorem runPlains_cursorOn (hc : Contract env record) {plain : List (Option Json)}
    (hplain : ∀ params ∈ plain, IsPlain params) :
    Triple (fun w ↦ Consistent w ∧ CursorOn record id driver cursor w) (runPlains env plain)
      fun _ w ↦ Consistent w ∧ CursorOn record id driver cursor w := by
  induction plain with
  | nil => exact .pure fun w hw ↦ hw
  | cons params plain ih =>
    obtain ⟨hparams, hrest⟩ := List.forall_mem_cons.1 hplain
    apply Triple.bind (queryRun_plain_cursorOn hc hparams)
    intro answer
    exact ih hrest

/-- What is left to read under a cursor. -/
def leftOf (cursor : Option Execution) : Option (List Row) := cursor.map (·.left 0)

theorem left_at_window {maxRows : ℕ} :
    (e.at (e.fetched + maxRows)).left 0 = (e.left 0).drop maxRows := by
  rw [Execution.left, Execution.left, List.drop_drop]
  rfl

/-- One turn draws once from what is left under the cursor. -/
theorem runTurn_draw (hc : Contract env record) (hnever : NeverFails env record) (turn : Turn id)
    (hsize : ∀ e ∈ cursor, (e.window 0 turn.limit).length ≤ maxPageRows) :
    Triple (fun w ↦ Consistent w ∧ CursorOn record id driver cursor w)
      (ipcMethodQueryNext env turn.next)
      fun answer w ↦ Consistent w ∧ ∃ next shown, CursorOn record id driver next w ∧
        (∀ columns, (∀ e ∈ cursor, e.columns = columns) →
          Shows columns shown answer ∧ ∀ e ∈ next, e.columns = columns) ∧
        ∀ limits, draw (leftOf cursor) (turn.limit :: limits) =
          shown :: draw (leftOf next) limits := by
  refine ⟨fun w hw ↦ ⟨?_, ?_⟩⟩
  · exact (consistent_of_told fun _ _ ↦ ipcMethodQueryNext_spec).run w hw.1
  cases cursor with
  | none =>
    obtain ⟨hanswer, hcursor⟩ := (queryNext_noCursor turn.asks).run w hw.2
    exact ⟨none, none, hcursor, fun columns _ ↦ ⟨hanswer, by simp⟩, fun limits ↦ rfl⟩
  | some e =>
    have hanswer := (queryNext_answers hc turn.asks).run w hw.2
    obtain ⟨next, hcursor, hshown⟩ := hanswer.shows hnever (hsize e rfl)
    rcases hshown with ⟨hshows, hfull, rfl⟩ | ⟨hshows, hlast, rfl⟩
    · refine ⟨_, some (e.window 0 turn.limit, true), hcursor, fun columns hcolumns ↦ ?_,
        fun limits ↦ ?_⟩
      · cases hcolumns e rfl
        refine ⟨hshows, fun e' he' ↦ ?_⟩
        cases he'
        rfl
      · change draw (some (e.left 0)) _ = _ :: draw (some ((e.at _).left 0)) limits
        rw [draw, if_pos hfull, left_at_window]
        rfl
    · refine ⟨_, some (e.left 0, false), hcursor, fun columns hcolumns ↦ ?_, fun limits ↦ ?_⟩
      · cases hcolumns e rfl
        exact ⟨hshows, by simp⟩
      · exact if_neg hlast

/-- The turns draw from what is left under the cursor. -/
theorem runTurns_draw (hc : Contract env record) (hnever : NeverFails env record)
    {columns : List Column} (turns : List (Turn id))
    (hcolumns : ∀ e ∈ cursor, e.columns = columns)
    (hsize : ∀ page more, some (page, more) ∈ draw (leftOf cursor) (turns.map Turn.limit) →
      page.length ≤ maxPageRows) :
    Triple (fun w ↦ Consistent w ∧ CursorOn record id driver cursor w) (runTurns env turns)
      fun answers _ ↦
        List.Forall₂ (Shows columns) (draw (leftOf cursor) (turns.map Turn.limit)) answers := by
  induction turns generalizing cursor with
  | nil =>
    refine .pure fun w hw ↦ ?_
    rw [List.map_nil, draw]
    exact .nil
  | cons turn turns ih =>
    have hwindow : ∀ e ∈ cursor, (e.window 0 turn.limit).length ≤ maxPageRows := by
      rintro e rfl
      change ∀ page more, some (page, more) ∈ draw (some (e.left 0)) _ → _ at hsize
      rw [List.map_cons, draw] at hsize
      split at hsize
      next hfull => exact hsize _ _ (.head _)
      next hlast =>
        refine le_trans ?_ (hsize _ _ (.head _))
        exact (List.take_sublist _ _).length_le
    apply Triple.bind (runPlains_cursorOn hc turn.isPlain)
    intro _
    apply Triple.bind (runTurn_draw hc hnever turn hwindow)
    intro answer
    refine ⟨fun w hw ↦ ?_⟩
    obtain ⟨hconsistent, next, shown, hcursor, hshown, hdraw⟩ := hw
    obtain ⟨hanswer, hnext⟩ := hshown columns hcolumns
    rw [List.map_cons, hdraw] at hsize
    have hrest := ih hnext fun page more hmem ↦ hsize page more (.tail _ hmem)
    have hanswers := hrest.run w ⟨hconsistent, hcursor⟩
    rw [List.map_cons, hdraw]
    exact .cons hanswer hanswers

end Reading

/-- The driver runs `sql` with the rows of `e` each time. -/
def Yields (env : Env σ) (record : σ → ResultId → Option Execution) (driver sql : Text)
    (e : Execution) : Prop :=
  Succeeds env driver sql ∧ Runs env record driver sql fun e' ↦ e' = e

/-! ## Requests of a client -/

/-- The parameters of `query.run` with a limit. -/
def runParams (id : ℕ) (sql : Text) (limit : ℕ) (cursor : Bool) : Option Json :=
  some (.obj [("connId".toList, .str (ipcConnIdFormat id)), ("sql".toList, .str sql),
    ("limit".toList, .num limit), ("cursor".toList, .bool cursor)])

def nextParams (id limit : ℕ) : Option Json :=
  some (.obj [("connId".toList, .str (ipcConnIdFormat id)), ("limit".toList, .num limit)])

theorem queryRunParams_runParams {id limit : ℕ} (hid : 1 ≤ id) (hidMax : id ≤ intMax)
    (hlimit : 1 ≤ limit) (hmax : limit ≤ intMax) (sql : Text) (cursor : Bool) :
    queryRunParams (runParams id sql limit cursor) = .ok ⟨id, sql, limit, 0, cursor⟩ := by
  have hidField : field (runParams id sql limit cursor) "connId" = some (.str (ipcConnIdFormat id)) := rfl
  have hconn : ipcConnId (runParams id sql limit cursor) = .ok id := by
    rw [ipcConnId, hidField]
    dsimp only
    rw [ipcConnIdParse_format hid hidMax]
  have hlimitField : field (runParams id sql limit cursor) "limit" = some (.num limit) := rfl
  have hlimit' : ipcQueryLimit (runParams id sql limit cursor) = .ok limit := by
    rw [ipcQueryLimit, hlimitField]
    dsimp only
    rw [wholeNumber_natCast hlimit hmax]
  have hoffset : ipcQueryOffset (runParams id sql limit cursor) = .ok 0 := rfl
  have hcursor : ipcQueryCursor (runParams id sql limit cursor) = .ok cursor := rfl
  have hsql : field (runParams id sql limit cursor) "sql" = some (.str sql) := rfl
  rw [queryRunParams, hconn, hsql, hlimit', hoffset, hcursor]
  exact if_neg fun hboth ↦ hboth.2.false

theorem queryNextParams_nextParams {id limit : ℕ} (hid : 1 ≤ id) (hidMax : id ≤ intMax)
    (hlimit : 1 ≤ limit) (hmax : limit ≤ intMax) :
    queryNextParams (nextParams id limit) = .ok ⟨id, limit⟩ := by
  have hidField : field (nextParams id limit) "connId" = some (.str (ipcConnIdFormat id)) := rfl
  have hconn : ipcConnId (nextParams id limit) = .ok id := by
    rw [ipcConnId, hidField]
    dsimp only
    rw [ipcConnIdParse_format hid hidMax]
  have hlimitField : field (nextParams id limit) "limit" = some (.num limit) := rfl
  have hlimit' : ipcQueryLimit (nextParams id limit) = .ok limit := by
    rw [ipcQueryLimit, hlimitField]
    dsimp only
    rw [wholeNumber_natCast hlimit hmax]
  rw [queryNextParams, hconn, hlimit']
  rfl

/-! ## A table of one column -/

/-- A column of `n` null cells, under any name. -/
def nulls (n : ℕ) : Execution where
  sql := []
  columns := [⟨none, .null⟩]
  rows := List.replicate n [none]
  fetched := 0
  columns_le := by decide
  width row hrow := by
    rw [List.eq_of_mem_replicate hrow]
    rfl
  rows_nil h := by cases h

theorem nulls_yields (n : ℕ) :
    Yields (tableEnv fun _ ↦ some (nulls n)) tableRecord [] [] (nulls n) :=
  @tableEnv_runs (fun _ ↦ some (nulls n)) [] (nulls n) rfl []

/-- The requests that open one connection. -/
def openOne : List Op :=
  [.connOpen (some (.obj [("driver".toList, .str []), ("dsn".toList, .str [])]))]

theorem connected_openOne (tables : Tables) :
    Connected 1 [] (worldAfter (tableEnv tables) (fun _ ↦ none) openOne) :=
  ⟨0, ⟨1, [], 0, none, false⟩, rfl, rfl⟩

/-- A plain run, and then the next two rows. -/
def turnOne : Turn 1 where
  plain := [runParams 1 [] 1 false]
  next := nextParams 1 2
  limit := 2
  isPlain params hparams p hp := by
    rw [List.mem_singleton.1 hparams,
      queryRunParams_runParams (by decide) (by decide) (by decide) (by decide)] at hp
    cases hp
    rfl
  asks := queryNextParams_nextParams (by decide) (by decide) (by decide) (by decide)

/-! ## Paged reads and ranges -/

/-- The answers are the draws from the rows, these make up a prefix of the rows, each page has the
rows it asks for or all that are left, and the reading stops with all rows read. -/
structure PagedRead (columns : List Column) (rows : List Row) (limits : List ℕ)
    (answers : List Answer) : Prop where
  answers : List.Forall₂ (Shows columns) (draw (some rows) limits) answers
  isPrefix : drawn (draw (some rows) limits) <+: rows
  pageLength : ∀ (i limit : ℕ) page more, limits[i]? = some limit →
    (draw (some rows) limits)[i]? = some (some (page, more)) →
      page.length = min limit (rows.length - (limits.take i).sum) ∧
        (more = true ↔ limit ≤ rows.length - (limits.take i).sum)
  atEnd : ∀ page, some (page, false) ∈ draw (some rows) limits →
    drawn (draw (some rows) limits) = rows
  stops : rows.length < limits.sum → ∃ page, some (page, false) ∈ draw (some rows) limits

section PagedRead

variable {driver sql : Text} {e : Execution} {w : World σ} {limit offset : ℕ}

theorem left_of_fetched (he : e.fetched = 0) (offset : ℕ) : e.left offset = e.rows.drop offset := by
  rw [Execution.left, he, Nat.zero_add]

theorem readPages_draw (hc : Contract env record) (hnever : NeverFails env record)
    (he : e.fetched = 0) (hyields : Yields env record driver sql e) (hw : Consistent w)
    (hconn : Connected id driver w) {first : Option Json}
    (hfirst : queryRunParams first = .ok ⟨id, sql, limit, 0, true⟩) (turns : List (Turn id))
    (hsize : ∀ page more, some (page, more) ∈ draw (some e.rows) (limit :: turns.map Turn.limit) →
      page.length ≤ maxPageRows) :
    List.Forall₂ (Shows e.columns) (draw (some e.rows) (limit :: turns.map Turn.limit))
      ((readPages env first turns).run w).1 := by
  have hconsistent := (consistent_of_told fun _ _ ↦ ipcMethodQueryRun_spec).run
    (m := ipcMethodQueryRun env first) w hw
  have hleft : e.left 0 = e.rows := left_of_fetched he 0
  rw [draw] at hsize ⊢
  rcases (queryRun_cursor_answers hc hfirst rfl hyields.2).run w hconn with
    ⟨⟨-, hfails⟩, -⟩ | ⟨e', rfl, hanswer⟩
  · exact absurd hyields.1 hfails
  have hwindow : (e'.window 0 limit).length ≤ maxPageRows := by
    rw [Execution.window, hleft]
    by_cases hfull : limit ≤ e'.rows.length
    · rw [if_pos hfull] at hsize
      exact hsize _ _ (.head _)
    · rw [if_neg hfull] at hsize
      exact (List.take_sublist _ _).length_le.trans (hsize _ _ (.head _))
  obtain ⟨next, hcursor, hshown⟩ := hanswer.shows hnever hwindow
  rw [hleft] at hshown
  rcases hshown with ⟨hshows, hfull, rfl⟩ | ⟨hshows, hlast, rfl⟩
  · rw [if_pos hfull] at hsize ⊢
    rw [Execution.window, hleft] at hshows
    refine .cons hshows ?_
    have hrest : leftOf (some (e'.at (e'.fetched + limit))) = some (e'.rows.drop limit) := by
      rw [← hleft]
      exact congrArg some left_at_window
    rw [← hrest] at hsize ⊢
    refine (runTurns_draw hc hnever turns ?_ fun page more hmem ↦
      hsize page more (.tail _ hmem)).run _ ⟨hconsistent, hcursor⟩
    intro e he
    cases he
    rfl
  · rw [if_neg hlast] at hsize ⊢
    refine .cons hshows ?_
    have hrest : Triple (fun w ↦ Consistent w ∧ CursorOn record id driver none w)
        (runTurns env turns) fun answers _ ↦ List.Forall₂ (Shows e'.columns)
          (draw (leftOf none) (turns.map Turn.limit)) answers :=
      runTurns_draw hc hnever turns (by simp) fun page more hmem ↦
        absurd hmem (not_mem_draw_none _ _)
    exact hrest.run _ ⟨hconsistent, hcursor⟩

theorem queryRun_range (hc : Contract env record) (hnever : NeverFails env record)
    (he : e.fetched = 0) (hyields : Yields env record driver sql e)
    (hconn : Connected id driver w) {params : Option Json}
    (hparams : queryRunParams params = .ok ⟨id, sql, limit, offset, false⟩)
    (hsize : ((e.rows.drop offset).take limit).length ≤ maxPageRows) :
    ShowsRange e.columns e.rows offset limit ((ipcMethodQueryRun env params).run w).1 := by
  rcases (queryRun_plain_answers hc hparams rfl hyields.2).run w hconn with
    ⟨-, hfails⟩ | ⟨e', rfl, hanswer⟩
  · exact absurd hyields.1 hfails
  have hleft := left_of_fetched he offset
  cases hcase : ((ipcMethodQueryRun env params).run w).1 with
  | error err =>
    rw [hcase, PlainAnswer, Execution.window, hleft] at hanswer
    rcases hanswer with hlarge | hfails
    · exact absurd hsize (not_le.2 hlarge)
    · exact absurd hnever hfails
  | ok page =>
    rw [hcase] at hanswer
    obtain ⟨res, rowsAffected, n, r, rfl, hpage, -⟩ := hanswer
    refine ⟨res, rfl, hpage.columns, ?_, hpage.truncated.trans ?_⟩
    · rw [hpage.rows, Execution.window, hleft]
      rfl
    · rw [if_neg Bool.false_ne_true, hleft, List.length_drop]
      change limit < e'.rows.length - offset ↔ _
      omega

/-- A page that would have more rows than the array can hold is an error. -/
theorem queryRun_large (hc : Contract env record) (he : e.fetched = 0)
    (hyields : Yields env record driver sql e) (hconn : Connected id driver w)
    {params : Option Json} (hparams : queryRunParams params = .ok ⟨id, sql, limit, 0, true⟩)
    (hlarge : maxPageRows < (e.rows.take limit).length) :
    ∃ err, ((ipcMethodQueryRun env params).run w).1 = .error err := by
  rcases (queryRun_cursor_answers hc hparams rfl hyields.2).run w hconn with
    ⟨⟨herror, -⟩, -⟩ | ⟨e', rfl, hanswer⟩
  · exact herror
  cases hcase : ((ipcMethodQueryRun env params).run w).1 with
  | error err => exact ⟨err, rfl⟩
  | ok page =>
    rw [hcase] at hanswer
    obtain ⟨res, rowsAffected, n, -, hpage, -⟩ := hanswer
    have hrows : res.rows = e'.rows.take limit := by
      rw [hpage.rows, Execution.window, left_of_fetched he 0]
      rfl
    have hle := hpage.rows_le
    rw [hrows] at hle
    exact absurd hle (not_le.2 hlarge)

/-- Where the first page is an error the result is not read. -/
theorem not_pagedRead_of_error {columns : List Column} {rows : List Row} {limits : List ℕ}
    {first : Option Json} {turns : List (Turn id)} (hfull : limit ≤ rows.length)
    (herror : ∃ err, ((ipcMethodQueryRun env first).run w).1 = .error err) :
    ¬ PagedRead columns rows (limit :: limits) ((readPages env first turns).run w).1 := by
  intro hread
  obtain ⟨err, herror⟩ := herror
  have hanswers := hread.answers
  have hfirst : ((readPages env first turns).run w).1 = ((ipcMethodQueryRun env first).run w).1 ::
      ((runTurns env turns).run ((ipcMethodQueryRun env first).run w).2).1 := rfl
  rw [draw, if_pos hfull, hfirst, herror] at hanswers
  obtain ⟨⟨res, hanswer, -⟩, -⟩ := List.forall₂_cons.1 hanswers
  cases hanswer

/-- Paging with a cursor and paging with an offset both read the whole result, as long as no page
has more rows than the array of a result can hold. -/
theorem cursorPaging (hc : Contract env record) (hnever : NeverFails env record)
    (he : e.fetched = 0) (hyields : Yields env record driver sql e) (drivers : σ) (ops : List Op)
    (hconn : Connected id driver (worldAfter env drivers ops))
    {first : Option Json} (hfirst : queryRunParams first = .ok ⟨id, sql, limit, 0, true⟩)
    (turns : List (Turn id))
    (hsize : ∀ page more, some (page, more) ∈ draw (some e.rows) (limit :: turns.map Turn.limit) →
      page.length ≤ maxPageRows) :
    PagedRead e.columns e.rows (limit :: turns.map Turn.limit)
        ((readPages env first turns).run (worldAfter env drivers ops)).1 ∧
      ∀ (limit offset : ℕ) (params : Option Json),
        queryRunParams params = .ok ⟨id, sql, limit, offset, false⟩ →
        ((e.rows.drop offset).take limit).length ≤ maxPageRows →
          ShowsRange e.columns e.rows offset limit
            ((ipcMethodQueryRun env params).run (worldAfter env drivers ops)).1 := by
  have hw := worldAfter_consistent env drivers ops
  refine ⟨?_, fun limit offset params hparams hrange ↦
    queryRun_range hc hnever he hyields hconn hparams hrange⟩
  exact
    { answers := readPages_draw hc hnever he hyields hw hconn hfirst turns hsize
      isPrefix := drawn_draw_prefix _ _
      pageLength := fun i limit page more hlimit hpage ↦ length_of_draw hlimit hpage
      atEnd := fun page hpage ↦ drawn_draw_eq hpage
      stops := exists_last_draw }

end PagedRead

theorem runParams_two : queryRunParams (runParams 1 [] 2 true) = .ok ⟨1, [], 2, 0, true⟩ :=
  queryRunParams_runParams (by decide) (by decide) (by decide) (by decide) [] true

theorem cursorPaging_nulls :
    let w := worldAfter (tableEnv fun _ ↦ some (nulls 3)) (fun _ ↦ none) openOne
    PagedRead (nulls 3).columns (nulls 3).rows [2, 2]
        ((readPages (tableEnv fun _ ↦ some (nulls 3)) (runParams 1 [] 2 true) [turnOne]).run w).1 ∧
      ∀ (limit offset : ℕ) (params : Option Json),
        queryRunParams params = .ok ⟨1, [], limit, offset, false⟩ →
        (((nulls 3).rows.drop offset).take limit).length ≤ maxPageRows →
          ShowsRange (nulls 3).columns (nulls 3).rows offset limit
            ((ipcMethodQueryRun (tableEnv fun _ ↦ some (nulls 3)) params).run w).1 :=
  cursorPaging tableEnv_contract tableEnv_neverFails rfl (nulls_yields 3)
    (fun _ ↦ none) openOne (connected_openOne _)
    runParams_two [turnOne] fun page more hpage ↦ (length_le_of_mem_draw hpage).trans (by decide)

/-- One row more than the array can hold: the page is refused, whatever the memory. -/
theorem not_pagedRead_large :
    ¬ PagedRead (nulls (2 ^ 30 + 1)).columns (nulls (2 ^ 30 + 1)).rows [2 ^ 30 + 1]
      ((readPages (tableEnv fun _ ↦ some (nulls (2 ^ 30 + 1)))
          (runParams 1 [] (2 ^ 30 + 1) true) ([] : List (Turn 1))).run
        (worldAfter (tableEnv fun _ ↦ some (nulls (2 ^ 30 + 1))) (fun _ ↦ none) openOne)).1 := by
  have hlength : (nulls (2 ^ 30 + 1)).rows.length = 2 ^ 30 + 1 := List.length_replicate
  have hparams : queryRunParams (runParams 1 [] (2 ^ 30 + 1) true) =
      .ok ⟨1, [], 2 ^ 30 + 1, 0, true⟩ :=
    queryRunParams_runParams (by decide) (by decide) (by decide) (by decide) [] true
  have hlarge : maxPageRows < ((nulls (2 ^ 30 + 1)).rows.take (2 ^ 30 + 1)).length := by
    rw [List.length_take, hlength, Nat.min_self, maxPageRows]
    exact Nat.lt_succ_self _
  exact not_pagedRead_of_error hlength.ge
    (queryRun_large tableEnv_contract rfl (nulls_yields _) (connected_openOne _) hparams hlarge)

end Squaero.Ipc
