import Squaero.Core.Execution

/-!
# Pages of an execution

A page is a range of the rows of an execution: with `keepOpen` the next rows, in front of which the
result stays, otherwise the rows behind an offset, and one more that tells whether there is one.
-/

namespace Squaero.Core

open Squaero.Lib

/-- `res'` is `res` with the next `count` rows of the execution, `toSkip` of them skipped. With
`keepOpen` it counts as truncated once it is full, else only where a row is left. -/
structure PageOf (e : Execution) (toSkip count : ℕ) (keepOpen : Bool) (res res' : Result) : Prop where
  columns : res'.columns = res.columns
  rows : res'.rows = res.rows ++ e.window toSkip count
  rows_le : res'.rows.length ≤ maxPageRows
  truncated : res'.truncated = true ↔
    if keepOpen then count ≤ (e.left toSkip).length else count < (e.left toSkip).length

namespace PageOf

variable {e : Execution} {toSkip count : ℕ} {keepOpen : Bool} {res res' : Result}

theorem skip (h : PageOf (e.at (e.fetched + 1)) toSkip count keepOpen res res') :
    PageOf e (toSkip + 1) count keepOpen res res' where
  columns := h.columns
  rows := by
    rw [h.rows, Execution.window, Execution.left_succ]
    rfl
  rows_le := h.rows_le
  truncated := by rw [h.truncated, Execution.left_succ]

theorem take {cap : ℕ} (hrow : e.fetched < e.rows.length)
    (h : PageOf (e.at (e.fetched + 1)) 0 count keepOpen
      { res with rows := res.rows ++ [e.rows[e.fetched]], rowCap := cap } res') :
    PageOf e 0 (count + 1) keepOpen res res' where
  columns := h.columns
  rows := by
    rw [h.rows, Execution.window_zero_succ hrow, List.append_assoc, List.singleton_append]
  rows_le := h.rows_le
  truncated := by
    rw [h.truncated, Execution.left_zero_of_lt hrow, List.length_cons, Nat.add_le_add_iff_right,
      Nat.add_lt_add_iff_right]

/-- Nothing is left. -/
theorem done (hstored : Stored res) (hopen : res.truncated = false) (hleft : e.left toSkip = [])
    (hcount : keepOpen → 0 < count) : PageOf e toSkip count keepOpen res res where
  columns := rfl
  rows := by rw [Execution.window, hleft, List.take_nil, List.append_nil]
  rows_le := hstored.rows_le_max
  truncated := by
    rw [hopen, hleft, List.length_nil]
    cases keepOpen with
    | false => simp
    | true => simpa using (hcount rfl).ne'

/-- The page is full. -/
theorem full (hstored : Stored res) (hleft : keepOpen = false → e.left toSkip ≠ []) :
    PageOf e toSkip 0 keepOpen res { res with truncated := true } where
  columns := rfl
  rows := by rw [Execution.window, List.take_zero, List.append_nil]
  rows_le := hstored.rows_le_max
  truncated := by
    refine iff_of_true rfl ?_
    cases keepOpen with
    | true => exact Nat.zero_le _
    | false => exact List.length_pos_of_ne_nil (hleft rfl)

end PageOf

/-! ## Reading a result -/

section Reading

variable {σ : Type} {env : Env σ} {record : σ → ResultId → Option Execution}
  {r : ResultId} {e : Execution} {driver : Text}

/-- The result `r` stands for `e`. -/
def Recorded (record : σ → ResultId → Option Execution) (r : ResultId) (e : Execution)
    (w : World σ) : Prop :=
  record w.drivers r = some e

theorem perform_frame (hc : Contract env record) {α : Type} {call : Call α}
    (hcall : call.moves ≠ some r) :
    Triple (Recorded record r e) (perform env driver call) fun _ ↦ Recorded record r e :=
  ⟨fun w hw ↦ (hc.frame driver call w.drivers r hcall).trans hw⟩

/-- A call that only reads answers from the record. -/
theorem perform_answer (hc : Contract env record) {α : Type} {call : Call α} {a : α}
    (hcall : call.moves ≠ some r)
    (ha : ∀ s, record s r = some e → (env.answer driver call s).1 = a) :
    Triple (Recorded record r e) (perform env driver call)
      fun answer w ↦ answer = a ∧ Recorded record r e w :=
  ⟨fun w hw ↦ ⟨ha w.drivers hw, (hc.frame driver call w.drivers r hcall).trans hw⟩⟩

theorem readColumns_columns (hc : Contract env record) {col count : ℕ}
    (hcount : col + count = e.columns.length) :
    Triple (Recorded record r e) (readColumns env driver r col count)
      fun columns w ↦ columns = e.columns.drop col ∧ Recorded record r e w := by
  induction count generalizing col with
  | zero =>
    refine .pure fun w hw ↦ ⟨(List.drop_eq_nil_of_le ?_).symm, hw⟩
    omega
  | succ count ih =>
    have hcol : col < e.columns.length := by omega
    apply Triple.bind (perform_answer hc (by simp [Call.moves]) fun s hs ↦
      hc.colName driver s r e hs col hcol)
    intro name
    apply Triple.of_imp
    rintro rfl
    apply Triple.bind (perform_answer hc (by simp [Call.moves]) fun s hs ↦
      hc.colType driver s r e hs col hcol)
    intro type
    apply Triple.of_imp
    rintro rfl
    apply Triple.bind (ih (by omega))
    intro columns
    apply Triple.of_imp
    rintro rfl
    exact .pure fun w hw ↦ ⟨(List.drop_eq_getElem_cons hcol).symm, hw⟩

theorem readCells_row (hc : Contract env record) {row : Row}
    (hrow : e.rows[e.fetched - 1]? = some row) {col count : ℕ} (hcount : col + count = row.length) :
    Triple (Recorded record r e) (readCells env driver r col count)
      fun cells w ↦ cells = row.drop col ∧ Recorded record r e w := by
  induction count generalizing col with
  | zero =>
    refine .pure fun w hw ↦ ⟨(List.drop_eq_nil_of_le ?_).symm, hw⟩
    omega
  | succ count ih =>
    have hcol : col < row.length := by omega
    apply Triple.bind (perform_answer hc (by simp [Call.moves]) fun s hs ↦
      hc.cellText driver s r e hs row hrow col hcol)
    intro cell
    apply Triple.of_imp
    rintro rfl
    apply Triple.bind (ih (by omega))
    intro cells
    apply Triple.of_imp
    rintro rfl
    exact .pure fun w hw ↦ ⟨(List.drop_eq_getElem_cons hcol).symm, hw⟩

/-- The next row is there, there is none, or the driver fails to say. -/
theorem nextRow_answer (hc : Contract env record) :
    Triple (Recorded record r e) (perform env driver (.nextRow r))
      fun rc w ↦ rc < 0 ∧ ¬ NeverFails env record ∨
        rc = 1 ∧ e.fetched < e.rows.length ∧ Recorded record r (e.at (e.fetched + 1)) w ∨
        rc = 0 ∧ e.rows.length ≤ e.fetched ∧ Recorded record r e w := by
  refine ⟨fun w hw ↦ (hc.nextRow driver w.drivers r e hw).imp (fun hrc ↦ ⟨hrc, ?_⟩) id⟩
  intro hnever
  exact absurd (hnever driver w.drivers r e hw) (not_le.2 hrc)

/-- What comes out of the loop of `materialize`: no result where the page is too large, a failure
only of a driver that fails, or the page. -/
def Fetches (env : Env σ) (record : σ → ResultId → Option Execution) (r : ResultId)
    (e : Execution) (toSkip count : ℕ) (keepOpen : Bool) (res : Result) :
    Option (Result × ℤ) → World σ → Prop
  | none, _ => maxPageRows < res.rows.length + (e.window toSkip count).length
  | some (res', rc), w =>
    rc < 0 ∧ ¬ NeverFails env record ∨
      0 ≤ rc ∧ PageOf e toSkip count keepOpen res res' ∧
        ∃ n, Recorded record r (e.at n) w ∧
          (keepOpen → n = e.fetched + (e.window toSkip count).length)

theorem Fetches.skip {toSkip count : ℕ} {res : Result} {out : Option (Result × ℤ)} {w : World σ}
    (h : Fetches env record r (e.at (e.fetched + 1)) toSkip count false res out w) :
    Fetches env record r e (toSkip + 1) count false res out w := by
  cases out with
  | none =>
    rw [Fetches, Execution.window, Execution.left_succ] at h
    exact h
  | some out =>
    refine h.imp_right ?_
    rintro ⟨hrc, hpage, n, hw, -⟩
    refine ⟨hrc, hpage.skip, n, hw, ?_⟩
    intro hopen
    cases hopen

theorem Fetches.take {count cap : ℕ} {keepOpen : Bool} {res : Result}
    {out : Option (Result × ℤ)} {w : World σ} (hrow : e.fetched < e.rows.length)
    (h : Fetches env record r (e.at (e.fetched + 1)) 0 count keepOpen
      { res with rows := res.rows ++ [e.rows[e.fetched]], rowCap := cap } out w) :
    Fetches env record r e 0 (count + 1) keepOpen res out w := by
  have hwindow : (e.window 0 (count + 1)).length =
      ((e.at (e.fetched + 1)).window 0 count).length + 1 := by
    rw [Execution.window_zero_succ hrow, List.length_cons]
  cases out with
  | none =>
    rw [Fetches, List.length_append, List.length_singleton] at h
    rw [Fetches, hwindow]
    omega
  | some out =>
    refine h.imp_right fun ⟨hrc, hpage, n, hw, hn⟩ ↦
      ⟨hrc, hpage.take hrow, n, hw, fun hopen ↦ ?_⟩
    rw [hn hopen, hwindow]
    exact Nat.add_right_comm _ _ _

/-- With fuel for each row it may skip or take, the loop ends by itself. -/
theorem fetchRows_page (hc : Contract env record) {fuel toSkip count maxRows : ℕ} {keepOpen : Bool}
    {res : Result} (hstored : Stored res) (hopen : res.truncated = false)
    (hcolumns : res.columns = e.columns) (hsome : e.columns ≠ [])
    (hmax : 0 < maxRows) (hcount : res.rows.length + count = maxRows)
    (hskip : keepOpen → toSkip = 0) (hfuel : toSkip + count < fuel) :
    Triple (Recorded record r e) (fetchRows env driver r maxRows keepOpen fuel toSkip res)
      (Fetches env record r e toSkip count keepOpen res) := by
  induction fuel generalizing e toSkip count res with
  | zero => omega
  | succ fuel ih =>
    apply Triple.ite
    · -- a page that is kept open stops before it fetches a row too many
      rintro ⟨hkeep, -, hfull⟩
      have hzero : count = 0 := by omega
      subst hzero
      refine .pure fun w hw ↦ .inr
        ⟨le_rfl, .full hstored fun hclose ↦ ?_, e.fetched, hw, fun _ ↦ ?_⟩
      · rw [hkeep] at hclose
        cases hclose
      · rw [Execution.window, List.take_zero, List.length_nil, Nat.add_zero]
    intro hroom
    have hcountPos : keepOpen → 0 < count := by
      intro hkeep
      by_contra hzero
      exact hroom ⟨hkeep, hmax, by omega⟩
    apply Triple.bind (nextRow_answer hc)
    intro rc
    apply Triple.ite
    · intro hend
      refine .pure fun w hw ↦ ?_
      rcases hw with hfailed | ⟨hrc, -, -⟩ | ⟨hrc, hle, hw⟩
      · exact .inl hfailed
      · exact absurd hrc hend
      · have hleft : e.left toSkip = [] := Execution.left_of_le hle
        refine .inr ⟨hrc.ge, .done hstored hopen hleft hcountPos, e.fetched, hw, fun _ ↦ ?_⟩
        rw [Execution.window, hleft, List.take_nil, List.length_nil, Nat.add_zero]
    intro hrc
    have hone : rc = 1 := not_not.1 hrc
    refine Triple.pre (S := fun w ↦ e.fetched < e.rows.length ∧
      Recorded record r (e.at (e.fetched + 1)) w) ?_ ?_
    swap
    · rintro w (⟨hfailed, -⟩ | ⟨-, hrow, hw⟩ | ⟨hzero, -⟩)
      · omega
      · exact ⟨hrow, hw⟩
      · omega
    apply Triple.of_imp
    intro hrow
    apply Triple.ite
    · intro hpos
      obtain ⟨toSkip, rfl⟩ : ∃ n, toSkip = n + 1 := ⟨toSkip - 1, by omega⟩
      have hclose : keepOpen = false := by
        rw [Bool.eq_false_iff]
        intro hkeep
        exact absurd (hskip hkeep) (Nat.succ_ne_zero _)
      subst hclose
      have hstep := ih (e := e.at (e.fetched + 1)) hstored hopen hcolumns hsome hcount
        (fun h ↦ absurd h Bool.false_ne_true) (show toSkip + count < fuel by omega)
      exact hstep.post fun out w hw ↦ hw.skip
    intro hnone
    obtain rfl : toSkip = 0 := by omega
    apply Triple.ite
    · rintro ⟨-, hfull⟩
      have hzero : count = 0 := by omega
      subst hzero
      have hclose : keepOpen = false := by
        rw [Bool.eq_false_iff]
        intro hkeep
        exact (hcountPos hkeep).false
      subst hclose
      refine .pure fun w hw ↦ .inr
        ⟨by omega, .full hstored fun _ ↦ ?_, e.fetched + 1, hw, fun h ↦ ?_⟩
      · rw [Execution.left_zero_of_lt hrow]
        exact List.cons_ne_nil _ _
      · cases h
    intro hfits
    obtain ⟨count, rfl⟩ : ∃ n, count = n + 1 := ⟨count - 1, by omega⟩
    have hcells : (e.at (e.fetched + 1)).rows[(e.at (e.fetched + 1)).fetched - 1]? =
        some e.rows[e.fetched] := List.getElem?_eq_getElem hrow
    have hwidth : 0 + res.columns.length = e.rows[e.fetched].length := by
      rw [Nat.zero_add, hcolumns]
      exact (e.width _ (List.getElem_mem hrow)).symm
    apply Triple.bind (readCells_row hc hcells hwidth)
    intro cells
    apply Triple.of_imp
    rintro rfl
    rw [List.drop_zero]
    rcases Nat.lt_or_ge res.rows.length maxPageRows with hlt | hge
    · obtain ⟨cap, hadd, hstored'⟩ := addRow_eq_some hstored hlt (hcolumns ▸ hsome)
        (hcolumns ▸ e.columns_le)
      rw [hadd]
      have hlength : (res.rows ++ [e.rows[e.fetched]]).length = res.rows.length + 1 :=
        List.length_append
      have hstep := ih (e := e.at (e.fetched + 1)) hstored' hopen hcolumns hsome
        (show (res.rows ++ [e.rows[e.fetched]]).length + count = maxRows by omega) (fun _ ↦ rfl)
        (show 0 + count < fuel by omega)
      exact hstep.post fun out w hw ↦ hw.take hrow
    · have hfull : res.rows.length = maxPageRows := le_antisymm hstored.rows_le_max hge
      rw [addRow_eq_none hstored hfull (hcolumns ▸ hsome)]
      refine .pure fun w hw ↦ ?_
      rw [Fetches, Execution.window_zero_succ hrow, List.length_cons]
      omega

/-! ## A page -/

/-- The result of `materialize` before its first row. -/
def emptyPage (e : Execution) (rowsAffected : ℤ) : Result :=
  { columns := e.columns, rowsAffected := rowsAffected }

theorem stored_emptyPage (rowsAffected : ℤ) : Stored (emptyPage e rowsAffected) :=
  ⟨le_rfl, .inl rfl, .inl (Nat.zero_le _)⟩

/-- What comes out of `materialize`: an error where the page is too large or the driver fails, or
the page. -/
def Pages (env : Env σ) (record : σ → ResultId → Option Execution) (r : ResultId) (e : Execution)
    (offset maxRows : ℕ) (keepOpen : Bool) : Except (Status × Text) Result → World σ → Prop
  | .error failure, _ =>
    maxPageRows < (e.window offset maxRows).length ∧ failure = (.nomem, "out of memory".toList) ∨
      ¬ NeverFails env record
  | .ok res, w =>
    (∃ rowsAffected, PageOf e offset maxRows keepOpen (emptyPage e rowsAffected) res) ∧
      ∃ n, Recorded record r (e.at n) w ∧
        (keepOpen → n = e.fetched + (e.window offset maxRows).length)

theorem fetchPage_page (hc : Contract env record) {maxRows offset : ℕ} {keepOpen : Bool}
    {rowsAffected : ℤ} (hmax : 0 < maxRows) (hskip : keepOpen → offset = 0) :
    Triple (Recorded record r e)
      (fetchPage env driver r maxRows offset keepOpen (emptyPage e rowsAffected))
      (Fetches env record r e offset maxRows keepOpen (emptyPage e rowsAffected)) := by
  apply Triple.ite
  · intro hnone
    have hleft : e.left offset = [] := by
      rw [Execution.left, e.rows_nil hnone, List.drop_nil]
    refine .pure fun w hw ↦ .inr ⟨le_rfl,
      .done (stored_emptyPage rowsAffected) rfl hleft fun _ ↦ hmax, e.fetched, hw, fun _ ↦ ?_⟩
    rw [Execution.window, hleft, List.take_nil, List.length_nil, Nat.add_zero]
  · intro hsome
    exact fetchRows_page hc (stored_emptyPage rowsAffected) rfl rfl hsome hmax (Nat.zero_add _)
      hskip (Nat.lt_succ_self _)

theorem materialize_page (hc : Contract env record) {handle : Handle} {maxRows offset : ℕ}
    {keepOpen : Bool} (hmax : 0 < maxRows) (hskip : keepOpen → offset = 0) :
    Triple (Recorded record r e) (materialize env driver handle r maxRows offset keepOpen)
      (Pages env record r e offset maxRows keepOpen) := by
  apply Triple.bind (perform_answer hc (by simp [Call.moves]) fun s hs ↦
    hc.colCount driver s r e hs)
  intro colCount
  apply Triple.of_imp
  rintro rfl
  apply Triple.bind (readColumns_columns hc (by simp))
  intro columns
  apply Triple.of_imp
  rintro rfl
  rw [List.drop_zero]
  apply Triple.bind (perform_frame hc (by simp [Call.moves]))
  intro rowsAffected
  apply Triple.bind (fetchPage_page hc hmax hskip)
  intro fetched
  cases fetched with
  | none =>
    refine ⟨fun w hw ↦ .inl ⟨?_, rfl⟩⟩
    rw [Fetches, emptyPage, List.length_nil, Nat.zero_add] at hw
    exact hw
  | some fetched =>
    obtain ⟨res, rc⟩ := fetched
    apply Triple.ite
    · intro hfailed
      refine ⟨fun w hw ↦ .inr ?_⟩
      rcases hw with ⟨-, hnever⟩ | ⟨hrc, -⟩
      · exact hnever
      · omega
    intro hok
    have hpage (w : World σ) (hw : Fetches env record r e offset maxRows keepOpen
        (emptyPage e rowsAffected) (some (res, rc)) w) :
        Pages env record r e offset maxRows keepOpen (.ok res) w := by
      rcases hw with ⟨hrc, -⟩ | ⟨-, hpage, hrecord⟩
      · exact absurd hrc hok
      · exact ⟨⟨rowsAffected, hpage⟩, hrecord⟩
    apply Triple.ite
    · intro hclosed
      apply Triple.bind (Q := fun _ ↦ Pages env record r e offset maxRows keepOpen (.ok res))
      · refine ⟨fun w hw ↦ ?_⟩
        obtain ⟨hres, n, hrecord, hn⟩ := hpage w hw
        exact ⟨hres, n, (hc.frame driver (.freeResult r) w.drivers r (by simp [Call.moves])).trans
          hrecord, hn⟩
      intro _
      exact .pure fun w hw ↦ hw
    · intro hopen
      exact .pure hpage

end Reading

end Squaero.Core
