import Squaero.Core.TableDriver
import Squaero.Ipc.Connections
import Squaero.Lib.Log

/-!
# The transaction flag of a connection

The log of a run tells which connections have a transaction: those with a `tx.begin` that succeeded,
behind which no `tx.commit` succeeded and no `tx.rollback` was dispatched. `in_tx` is the answer of
the manager to the same question.
-/

namespace Squaero.Ipc

open Squaero.Lib Squaero.Lib.Log Squaero.Core

variable {σ : Type} {env : Env σ}

/-! ## The log of a run -/

/-- A request and its answer. -/
abbrev Entry := Op × Option Answer

/-- The requests of a run, in order, each with its answer. -/
def logOf (env : Env σ) (drivers : σ) (ops : List Op) : List Entry :=
  ops.zip ((runOps env ops).run (initialWorld drivers)).1

def Opens (id : ℕ) : Entry → Prop
  | (.connOpen _, some (.ok result)) =>
    field (some result) "connId" = some (.str (ipcConnIdFormat id))
  | _ => False

def Closes (id : ℕ) : Entry → Prop
  | (.connClose params, some (.ok _)) => ipcConnId params = .ok id
  | _ => False

def Begins (id : ℕ) : Entry → Prop
  | (.tx .begin params, some (.ok _)) => ipcConnId params = .ok id
  | _ => False

/-- A commit ends the transaction when it succeeds, a rollback always. -/
def Ends (id : ℕ) : Entry → Prop
  | (.tx .commit params, some (.ok _)) => ipcConnId params = .ok id
  | (.tx .rollback params, _) => ipcConnId params = .ok id
  | _ => False

/-- Behind its opening the connection has begun a transaction, and not ended it since. -/
def InTransaction (id : ℕ) (log : List Entry) : Prop :=
  Since (fun before x ↦ Begins id x ∧ ∃ opening ∈ before, Opens id opening) (Ends id) log

theorem inTransaction_concat {id : ℕ} {log : List Entry} {x : Entry} :
    InTransaction id (log ++ [x]) ↔
      (Begins id x ∧ ∃ opening ∈ log, Opens id opening) ∨ InTransaction id log ∧ ¬ Ends id x :=
  since_concat

theorem ipcConnIdFormat_injective : Function.Injective ipcConnIdFormat := by
  intro m n h
  have hdigits : Nat.toDigits 10 m = Nat.toDigits 10 n := (List.cons.inj h).2
  rw [← @Nat.ofDigitChars_ten_toDigits m, hdigits, Nat.ofDigitChars_ten_toDigits]

theorem runOps_append (ops ops' : List Op) (w : World σ) :
    (runOps env (ops ++ ops')).run w =
      (((runOps env ops).run w).1 ++ ((runOps env ops').run ((runOps env ops).run w).2).1,
        ((runOps env ops').run ((runOps env ops).run w).2).2) := by
  induction ops generalizing w with
  | nil => rfl
  | cons op ops ih =>
    have hcons (ops : List Op) : (runOps env (op :: ops)).run w =
        (((op.handle env).run w).1 :: ((runOps env ops).run ((op.handle env).run w).2).1,
          ((runOps env ops).run ((op.handle env).run w).2).2) := rfl
    rw [List.cons_append, hcons, hcons, ih]
    rfl

theorem length_runOps (ops : List Op) (w : World σ) :
    ((runOps env ops).run w).1.length = ops.length := by
  induction ops generalizing w with
  | nil => rfl
  | cons op ops ih => exact congrArg (· + 1) (ih _)

theorem worldAfter_concat (drivers : σ) (ops : List Op) (op : Op) :
    worldAfter env drivers (ops ++ [op]) = ((op.handle env).run (worldAfter env drivers ops)).2 := by
  rw [worldAfter, runOps_append]
  rfl

theorem logOf_concat (drivers : σ) (ops : List Op) (op : Op) :
    logOf env drivers (ops ++ [op]) = logOf env drivers ops ++
      [(op, ((op.handle env).run (worldAfter env drivers ops)).1)] := by
  rw [logOf, runOps_append, List.zip_append (length_runOps ops _).symm]
  rfl

/-! ## The log and the manager -/

/-- What the log says of the connections of the manager. -/
structure Logged (log : List Entry) (mgr : Manager) : Prop where
  numbered : mgr.Numbered
  opened : ∀ id s, mgr.conn id = some s → ∃ x ∈ log, Opens id x
  below : ∀ x ∈ log, ∀ id, Opens id x → id < mgr.nextId
  closed : ∀ x ∈ log, ∀ id, Closes id x → id < mgr.nextId ∧ mgr.conn id = none
  once : log.Pairwise fun x y ↦ ∀ id, Opens id x → ¬ Opens id y
  flag : ∀ id s, mgr.conn id = some s → (s.inTx = true ↔ InTransaction id log)

namespace Logged

variable {log : List Entry} {mgr mgr' : Manager} {x : Entry} {id : ℕ} {s : Slot}

theorem nil : Logged [] Manager.new where
  numbered := Manager.numbered_new
  opened id s h := by simp at h
  below x hx := by cases hx
  closed x hx := by cases hx
  once := .nil
  flag id s h := by simp at h

theorem lt_next (h : Logged log mgr) (hconn : mgr.conn id = some s) : id < mgr.nextId := by
  obtain ⟨hs, rfl⟩ := Manager.mem_live_of_conn hconn
  exact h.numbered.id_lt s hs

/-- An entry that opens and closes nothing, where the connections stay and their flags follow it. -/
theorem step (h : Logged log mgr) (hopens : ∀ id, ¬ Opens id x) (hcloses : ∀ id, ¬ Closes id x)
    (hnumbered : mgr'.Numbered) (hnext : mgr'.nextId = mgr.nextId)
    (hconn : ∀ id, (mgr'.conn id).isSome = (mgr.conn id).isSome)
    (hflag : ∀ id s s', mgr.conn id = some s → mgr'.conn id = some s' →
      (s'.inTx = true ↔ Begins id x ∨ s.inTx = true ∧ ¬ Ends id x)) :
    Logged (log ++ [x]) mgr' where
  numbered := hnumbered
  opened id s hs := by
    obtain ⟨t, ht⟩ := Option.isSome_iff_exists.1 ((hconn id).symm.trans (by rw [hs]; rfl))
    obtain ⟨y, hy, hopened⟩ := h.opened id t ht
    exact ⟨y, List.mem_append_left _ hy, hopened⟩
  below y hy id hopened := by
    rw [hnext]
    rcases List.mem_append.1 hy with hy | hy
    · exact h.below y hy id hopened
    · rw [List.mem_singleton.1 hy] at hopened
      exact absurd hopened (hopens id)
  closed y hy id hclosed := by
    rw [hnext]
    rcases List.mem_append.1 hy with hy | hy
    · obtain ⟨hlt, hnone⟩ := h.closed y hy id hclosed
      refine ⟨hlt, ?_⟩
      rw [← Option.isNone_iff_eq_none, ← Option.not_isSome, hconn, hnone]
      rfl
    · rw [List.mem_singleton.1 hy] at hclosed
      exact absurd hclosed (hcloses id)
  once := by
    refine List.pairwise_append.2 ⟨h.once, List.pairwise_singleton _ _, fun y _ z hz id _ ↦ ?_⟩
    rw [List.mem_singleton.1 hz]
    exact hopens id
  flag id s' hs' := by
    obtain ⟨s, hs⟩ := Option.isSome_iff_exists.1 ((hconn id).symm.trans (by rw [hs']; rfl))
    rw [hflag id s s' hs hs', h.flag id s hs, inTransaction_concat]
    constructor
    · exact Or.imp_left fun hbegins ↦ ⟨hbegins, h.opened id s hs⟩
    · exact Or.imp_left And.left

/-- An entry that says nothing of openings, closings and transactions. -/
theorem quiet (h : Logged log mgr) (hopens : ∀ id, ¬ Opens id x) (hcloses : ∀ id, ¬ Closes id x)
    (hbegins : ∀ id, ¬ Begins id x) (hends : ∀ id s, mgr.conn id = some s → ¬ Ends id x) :
    Logged (log ++ [x]) mgr := by
  refine h.step hopens hcloses h.numbered rfl (fun id ↦ rfl) fun id s s' hs hs' ↦ ?_
  cases hs.symm.trans hs'
  simp [hbegins id, hends id s hs]

/-- The cursor of a connection changes. -/
theorem recursored (h : Logged log mgr) (hopens : ∀ id, ¬ Opens id x)
    (hcloses : ∀ id, ¬ Closes id x) (hbegins : ∀ id, ¬ Begins id x) (hends : ∀ id, ¬ Ends id x)
    (hmgr : Recursored mgr id mgr') : Logged (log ++ [x]) mgr' := by
  rcases hmgr with rfl | ⟨s, cursor, hs, hsets⟩
  · exact h.quiet hopens hcloses hbegins fun id s _ ↦ hends id
  refine h.step hopens hcloses hsets.numbered hsets.next (fun other ↦ ?_) fun other t t' ht ht' ↦ ?_
  · rw [hsets.conn]
    by_cases hid : other = id
    · rw [hid, Function.update_self, hs]
      rfl
    · rw [Function.update_of_ne hid]
  · have hinTx : t'.inTx = t.inTx := by
      rw [hsets.conn] at ht'
      by_cases hid : other = id
      · subst hid
        rw [Function.update_self] at ht'
        cases hs.symm.trans ht
        cases ht'
        rfl
      · rw [Function.update_of_ne hid] at ht'
        cases ht.symm.trans ht'
        rfl
    rw [hinTx]
    simp [hbegins other, hends other]

/-- A connection is opened. -/
theorem opens (h : Logged log mgr) (hopens : ∀ id, Opens id x ↔ id = mgr.nextId)
    (hcloses : ∀ id, ¬ Closes id x) (hbegins : ∀ id, ¬ Begins id x) (hends : ∀ id, ¬ Ends id x)
    (hnumbered : mgr'.Numbered) (hnext : mgr'.nextId = mgr.nextId + 1)
    (hconn : mgr'.conn = Function.update mgr.conn mgr.nextId (some s)) (hs : s.inTx = false) :
    Logged (log ++ [x]) mgr' where
  numbered := hnumbered
  opened id t ht := by
    rw [hconn] at ht
    by_cases hid : id = mgr.nextId
    · exact ⟨x, by simp, (hopens id).2 hid⟩
    · rw [Function.update_of_ne hid] at ht
      obtain ⟨y, hy, hopened⟩ := h.opened id t ht
      exact ⟨y, List.mem_append_left _ hy, hopened⟩
  below y hy id hopened := by
    rw [hnext]
    rcases List.mem_append.1 hy with hy | hy
    · exact (h.below y hy id hopened).trans (Nat.lt_succ_self _)
    · rw [List.mem_singleton.1 hy] at hopened
      rw [(hopens id).1 hopened]
      exact Nat.lt_succ_self _
  closed y hy id hclosed := by
    rcases List.mem_append.1 hy with hy | hy
    · obtain ⟨hlt, hnone⟩ := h.closed y hy id hclosed
      rw [hnext, hconn, Function.update_of_ne hlt.ne]
      exact ⟨hlt.trans (Nat.lt_succ_self _), hnone⟩
    · rw [List.mem_singleton.1 hy] at hclosed
      exact absurd hclosed (hcloses id)
  once := by
    refine List.pairwise_append.2
      ⟨h.once, List.pairwise_singleton _ _, fun y hy z hz id hopened hagain ↦ ?_⟩
    rw [List.mem_singleton.1 hz, hopens] at hagain
    exact (h.below y hy id hopened).ne hagain
  flag id t ht := by
    rw [inTransaction_concat]
    rw [hconn] at ht
    by_cases hid : id = mgr.nextId
    · subst hid
      rw [Function.update_self] at ht
      cases ht
      rw [hs]
      refine iff_of_false Bool.false_ne_true ?_
      rintro (⟨hbegin, -⟩ | ⟨⟨before, y, after, rfl, ⟨-, opening, hopening, hopened⟩, -⟩, -⟩)
      · exact hbegins _ hbegin
      · exact (h.below opening (List.mem_append_left _ hopening) _ hopened).false
    · rw [Function.update_of_ne hid] at ht
      rw [h.flag id t ht]
      simp [hbegins id, hends id]

/-- A connection is closed. -/
theorem closes (h : Logged log mgr) (hopens : ∀ id, ¬ Opens id x)
    (hcloses : ∀ other, Closes other x ↔ other = id) (hbegins : ∀ id, ¬ Begins id x)
    (hends : ∀ id, ¬ Ends id x) (hlt : id < mgr.nextId) (hsets : mgr.Sets id none mgr') :
    Logged (log ++ [x]) mgr' where
  numbered := hsets.numbered
  opened other t ht := by
    rw [hsets.conn] at ht
    by_cases hid : other = id
    · rw [hid, Function.update_self] at ht
      cases ht
    · rw [Function.update_of_ne hid] at ht
      obtain ⟨y, hy, hopened⟩ := h.opened other t ht
      exact ⟨y, List.mem_append_left _ hy, hopened⟩
  below y hy other hopened := by
    rw [hsets.next]
    rcases List.mem_append.1 hy with hy | hy
    · exact h.below y hy other hopened
    · rw [List.mem_singleton.1 hy] at hopened
      exact absurd hopened (hopens other)
  closed y hy other hclosed := by
    rw [hsets.next, hsets.conn]
    rcases List.mem_append.1 hy with hy | hy
    · obtain ⟨hother, hnone⟩ := h.closed y hy other hclosed
      refine ⟨hother, ?_⟩
      by_cases hid : other = id
      · rw [hid, Function.update_self]
      · rw [Function.update_of_ne hid, hnone]
    · rw [List.mem_singleton.1 hy, hcloses] at hclosed
      subst hclosed
      exact ⟨hlt, Function.update_self _ _ _⟩
  once := by
    refine List.pairwise_append.2 ⟨h.once, List.pairwise_singleton _ _, fun y _ z hz other _ ↦ ?_⟩
    rw [List.mem_singleton.1 hz]
    exact hopens other
  flag other t ht := by
    rw [hsets.conn] at ht
    have hid : other ≠ id := by
      rintro rfl
      rw [Function.update_self] at ht
      cases ht
    rw [Function.update_of_ne hid] at ht
    rw [h.flag other t ht, inTransaction_concat]
    simp [hbegins other, hends other]

end Logged

/-! ## What a request preserves -/

section Step

variable {log : List Entry} {mgr : Manager} {params : Option Json}

theorem connOpen_logged (h : Logged log mgr) :
    Triple (fun w ↦ w.manager = mgr) (Op.handle env (.connOpen params))
      fun answer w ↦ Logged (log ++ [(.connOpen params, answer)]) w.manager := by
  apply Triple.map
  have herror (e : IpcError) :
      Triple (fun w ↦ w.manager = mgr) (pure (.error e) : CoreM σ Answer)
        fun answer w ↦ Logged (log ++ [(.connOpen params, some answer)]) w.manager :=
    .pure fun w hw ↦ hw ▸ h.quiet (fun _ ↦ not_false) (fun _ ↦ not_false) (fun _ ↦ not_false) fun _ _ _ ↦ not_false
  rw [ipcMethodConnOpen]
  split
  next driver hdriver =>
    split
    next => exact herror _
    next dsn hdsn =>
      split
      next => exact herror _
      next drv hdrv =>
        apply Triple.bind (connManagerOpen_conn h.numbered)
        intro opened
        cases opened with
        | error failure =>
          refine .pure fun w hw ↦ ?_
          rcases hw with ⟨-, hw⟩ | ⟨hopened, -⟩
          · exact (herror _).run w hw
          · cases hopened
        | ok id =>
          refine .pure fun w hw ↦ ?_
          rcases hw with ⟨⟨failure, hopened⟩, -⟩ | ⟨hopened, hnumbered, hnext, handle, hconn⟩
          · cases hopened
          cases hopened
          refine h.opens (fun other ↦ ?_) (fun _ ↦ not_false) (fun _ ↦ not_false) (fun _ ↦ not_false)
            hnumbered hnext hconn rfl
          change some (Json.str (ipcConnIdFormat mgr.nextId)) = some (.str (ipcConnIdFormat other)) ↔ _
          rw [Option.some_inj, Json.str.injEq, ipcConnIdFormat_injective.eq_iff]
          exact eq_comm
  next => exact herror _

theorem connClose_logged (h : Logged log mgr) :
    Triple (fun w ↦ w.manager = mgr) (Op.handle env (.connClose params))
      fun answer w ↦ Logged (log ++ [(.connClose params, answer)]) w.manager := by
  have herror {e : IpcError} : Logged (log ++ [(.connClose params, some (.error e))]) mgr :=
    h.quiet (fun _ ↦ not_false) (fun _ ↦ not_false) (fun _ ↦ not_false) fun _ _ _ ↦ not_false
  cases hid : ipcConnId params with
  | error e =>
    apply Triple.map
    rw [ipcMethodConnClose, hid]
    exact .pure fun w hw ↦ hw ▸ herror
  | ok id =>
    cases hconn : mgr.conn id with
    | none =>
      refine ⟨fun w hw ↦ ?_⟩
      subst hw
      have hnone := (handle_none (.connClose params) (toOption_eq_some.2 hid) hconn).run
        (m := Op.handle env _) w rfl
      obtain ⟨⟨e, hanswer⟩, hw⟩ := hnone
      rw [hanswer, hw]
      exact herror
    | some s =>
      apply Triple.map
      rw [ipcMethodConnClose, hid]
      apply Triple.bind (connManagerClose_conn h.numbered hconn)
      intro st
      apply Triple.of_imp
      rintro rfl
      refine .pure fun w hw ↦ h.closes (fun _ ↦ not_false) (fun other ↦ ?_)
        (fun _ ↦ not_false) (fun _ ↦ not_false) (h.lt_next hconn) hw
      change ipcConnId params = .ok other ↔ _
      rw [hid, Except.ok.injEq]
      exact eq_comm

/-- A transaction method begins and ends nothing but the transaction of its connection. -/
theorem connId_of_tx {op : TxOp} {answer : Option Answer} {id : ℕ}
    (h : Begins id (.tx op params, answer) ∨ Ends id (.tx op params, answer)) :
    ipcConnId params = .ok id := by
  cases op with
  | begin =>
    rcases answer with _ | _ | result
    · exact absurd h (by simp [Begins, Ends])
    · exact absurd h (by simp [Begins, Ends])
    · exact h.elim (fun hid ↦ hid) False.elim
  | commit =>
    rcases answer with _ | _ | result
    · exact absurd h (by simp [Begins, Ends])
    · exact absurd h (by simp [Begins, Ends])
    · exact h.elim False.elim fun hid ↦ hid
  | rollback => exact h.elim False.elim fun hid ↦ hid

theorem tx_logged (h : Logged log mgr) {op : TxOp} :
    Triple (fun w ↦ w.manager = mgr) (Op.handle env (.tx op params))
      fun answer w ↦ Logged (log ++ [(.tx op params, answer)]) w.manager := by
  have hopens (answer : Option Answer) (id : ℕ) : ¬ Opens id (.tx op params, answer) := not_false
  have hcloses (answer : Option Answer) (id : ℕ) : ¬ Closes id (.tx op params, answer) := not_false
  -- an error counts only where a rollback reached a connection
  have herror {e : IpcError}
      (hends : op = .rollback → ∀ id, ipcConnId params = .ok id → mgr.conn id = none) :
      Logged (log ++ [(.tx op params, some (.error e))]) mgr := by
    refine h.quiet (hopens _) (hcloses _) (fun id ↦ ?_) fun id s hs hend ↦ ?_
    · cases op <;> exact not_false
    · cases op with
      | rollback => cases hs.symm.trans (hends rfl id hend)
      | _ => exact hend
  cases hid : ipcConnId params with
  | error e =>
    apply Triple.map
    rw [txDispatch, hid]
    exact .pure fun w hw ↦ hw ▸ herror fun _ id hid' ↦ by cases hid.symm.trans hid'
  | ok id =>
    cases hconn : mgr.conn id with
    | none =>
      refine ⟨fun w hw ↦ ?_⟩
      subst hw
      have hnone := (handle_none (.tx op params) (toOption_eq_some.2 hid) hconn).run
        (m := Op.handle env _) w rfl
      obtain ⟨⟨e, hanswer⟩, hw⟩ := hnone
      rw [hanswer, hw]
      refine herror fun _ other hother ↦ ?_
      cases hid.symm.trans hother
      exact hconn
    | some s =>
      apply Triple.map
      rw [txDispatch, hid]
      refine (withConn_some hconn (txOnConn_conn h.numbered hconn)).post fun answer w hw ↦ ?_
      rcases hw with ⟨⟨⟨e, rfl⟩, hop⟩, rfl⟩ | ⟨hanswer, hsets⟩
      · exact herror fun heq ↦ absurd heq hop
      refine h.step (hopens _) (hcloses _) hsets.numbered hsets.next (fun other ↦ ?_)
        fun other t t' ht ht' ↦ ?_
      · rw [hsets.conn]
        by_cases hother : other = id
        · rw [hother, Function.update_self, hconn]
          rfl
        · rw [Function.update_of_ne hother]
      · rw [hsets.conn] at ht'
        by_cases hother : other = id
        · subst hother
          rw [Function.update_self] at ht'
          cases ht'
          cases op with
          | begin =>
            obtain ⟨result, rfl⟩ := hanswer.resolve_left (by simp)
            exact iff_of_true rfl (.inl hid)
          | commit =>
            obtain ⟨result, rfl⟩ := hanswer.resolve_left (by simp)
            exact iff_of_false Bool.false_ne_true (not_or.2 ⟨not_false, fun hends ↦ hends.2 hid⟩)
          | rollback =>
            exact iff_of_false Bool.false_ne_true (not_or.2 ⟨not_false, fun hends ↦ hends.2 hid⟩)
        · rw [Function.update_of_ne hother] at ht'
          cases ht.symm.trans ht'
          have hnot : ¬ ipcConnId params = .ok other := by
            rw [hid]
            simpa using Ne.symm hother
          have hbegins : ¬ Begins other (.tx op params, some answer) := fun h ↦
            hnot (connId_of_tx (.inl h))
          have hends : ¬ Ends other (.tx op params, some answer) := fun h ↦
            hnot (connId_of_tx (.inr h))
          simp [hbegins, hends]

/-- What one request preserves. -/
theorem handle_logged (h : Logged log mgr) {op : Op} (hop : op ≠ .connManagerFree) :
    Triple (fun w ↦ w.manager = mgr) (op.handle env)
      fun answer w ↦ Logged (log ++ [(op, answer)]) w.manager := by
  have hquery {op : Op} (hquery : op.IsQuery) :
      Triple (fun w ↦ w.manager = mgr) (op.handle env)
        fun answer w ↦ Logged (log ++ [(op, answer)]) w.manager := by
    refine (handle_query hquery h.numbered).post fun answer w hw ↦ ?_
    have hopens (id : ℕ) : ¬ Opens id (op, answer) := by
      cases op <;> first | exact hquery.elim | exact not_false
    have hcloses (id : ℕ) : ¬ Closes id (op, answer) := by
      cases op <;> first | exact hquery.elim | exact not_false
    have hbegins (id : ℕ) : ¬ Begins id (op, answer) := by
      cases op <;> first | exact hquery.elim | exact not_false
    have hends (id : ℕ) : ¬ Ends id (op, answer) := by
      cases op <;> first | exact hquery.elim | exact not_false
    rcases hw with rfl | ⟨id, -, hw⟩
    · exact h.quiet hopens hcloses hbegins fun id s _ ↦ hends id
    · exact h.recursored hopens hcloses hbegins hends hw
  cases op with
  | connOpen params => exact connOpen_logged h
  | connClose params => exact connClose_logged h
  | queryRun params => exact hquery trivial
  | queryNext params => exact hquery trivial
  | queryCursorClose params => exact hquery trivial
  | tx op params => exact tx_logged h
  | connManagerFree => exact absurd rfl hop

end Step

/-- What a run of requests preserves. -/
theorem worldAfter_logged (env : Env σ) (drivers : σ) {ops : List Op}
    (hops : ∀ op ∈ ops, op ≠ .connManagerFree) :
    Logged (logOf env drivers ops) (worldAfter env drivers ops).manager := by
  induction ops using List.reverseRecOn with
  | nil => exact Logged.nil
  | append_singleton ops op ih =>
    rw [logOf_concat, worldAfter_concat]
    have hbefore := ih fun op hop ↦ hops op (List.mem_append_left _ hop)
    exact (handle_logged hbefore (hops op (by simp))).run _ rfl

/-! ## Who calls `begin` -/

/-- The connections a call begins a transaction on. -/
def Call.begun : {α : Type} → Call α → List Handle
  | _, .begin handle => [handle]
  | _, _ => []

/-- The drivers as they are, with a list of the connections `begin` was called on. -/
def watch (env : Env σ) : Env (σ × List Handle) where
  findDriver := env.findDriver
  answer driver _ call s :=
    let r := env.answer driver call s.1
    (r.1, r.2, Call.begun call ++ s.2)
  tunnelDsn dsn s :=
    let r := env.tunnelDsn dsn s.1
    (r.1, r.2, s.2)
  printNumber := env.printNumber

section Watch

variable {begun : List Handle}

/-- `begin` was called on these connections so far. -/
def Begun (begun : List Handle) (w : World (σ × List Handle)) : Prop := w.drivers.2 = begun

theorem perform_begun {driver : Text} {α : Type} {call : Call α} (hcall : Call.begun call = []) :
    Triple (Begun begun) (perform (watch env) driver call) fun _ ↦ Begun begun :=
  ⟨fun w hw ↦ by
    change Call.begun call ++ w.drivers.2 = begun
    rw [hcall, List.nil_append]
    exact hw⟩

theorem setManager_begun {mgr : Manager} :
    Triple (Begun begun) (setManager mgr : CoreM (σ × List Handle) Unit) fun _ ↦ Begun begun :=
  ⟨fun _ hw ↦ hw⟩

theorem getManager_begun :
    Triple (Begun begun) (getManager : CoreM (σ × List Handle) Manager) fun _ ↦ Begun begun :=
  ⟨fun _ hw ↦ hw⟩

theorem connManagerOpen_begun {driver dsn : Text} :
    Triple (Begun begun) (connManagerOpen (watch env) driver dsn) fun _ ↦ Begun begun := by
  apply Triple.bind (Q := fun _ ↦ Begun begun)
  · exact ⟨fun w hw ↦ hw⟩
  intro tunnel
  cases tunnel with
  | error failure => exact .pure fun w hw ↦ hw
  | ok effectiveDsn =>
    apply Triple.bind (Q := fun _ ↦ Begun begun)
    · exact ⟨fun w hw ↦ hw⟩
    intro handle
    apply Triple.bind (perform_begun rfl)
    rintro ⟨st, given⟩
    apply Triple.ite
    · intro hfailed
      apply Triple.ite
      · intro hgiven
        apply Triple.bind (perform_begun rfl)
        intro msg
        exact Triple.thenReturn (perform_begun rfl)
      · intro hnone
        exact .pure fun w hw ↦ hw
    intro hok
    apply Triple.ite
    · intro hnone
      exact .pure fun w hw ↦ hw
    intro hgiven
    apply Triple.bind getManager_begun
    intro mgr
    exact Triple.thenReturn setManager_begun

theorem connManagerClose_begun {id : ℕ} :
    Triple (Begun begun) (connManagerClose (watch env) id) fun _ ↦ Begun begun := by
  apply Triple.bind getManager_begun
  intro mgr
  cases mgr.findSlot id with
  | none => exact .pure fun w hw ↦ hw
  | some found =>
    obtain ⟨i, s⟩ := found
    apply Triple.thenReturn
    apply Triple.bind (Q := fun _ ↦ Begun begun)
    · cases s.cursor with
      | none => exact .pure fun w hw ↦ hw
      | some r =>
        rw [freeOther]
        exact .ite (fun _ ↦ perform_begun rfl) fun _ ↦ .pure fun w hw ↦ hw
    intro _
    apply Triple.bind getManager_begun
    intro mgr
    apply Triple.bind setManager_begun
    intro _
    apply Triple.bind (perform_begun rfl)
    intro _
    apply Triple.bind getManager_begun
    intro mgr
    exact setManager_begun

theorem runTx_begun {op : TxOp} {driver : Text} {handle : Handle} :
    Triple (Begun begun) (runTx (watch env) driver handle op)
      fun _ w ↦ Begun begun w ∨ op = .begin ∧ Begun (handle :: begun) w := by
  apply Triple.ite
  · intro hsupported
    apply Triple.bind (Q := fun _ w ↦ Begun begun w ∨ op = .begin ∧ Begun (handle :: begun) w)
    · cases op with
      | begin => exact ⟨fun w hw ↦ .inr ⟨rfl, congrArg (handle :: ·) hw⟩⟩
      | commit => exact (perform_begun rfl).post fun _ _ hw ↦ .inl hw
      | rollback => exact (perform_begun rfl).post fun _ _ hw ↦ .inl hw
    intro st
    apply Triple.ite
    · intro hfailed
      apply Triple.bind (Q := fun _ w ↦ Begun begun w ∨ op = .begin ∧ Begun (handle :: begun) w)
      · exact ⟨fun w hw ↦ hw⟩
      intro msg
      exact .pure fun w hw ↦ hw
    · intro hok
      exact .pure fun w hw ↦ hw
  · intro hunsupported
    exact .pure fun w hw ↦ .inl hw

theorem noteTx_drivers {P : σ → Prop} {id : ℕ} {op : TxOp} {st : Status} :
    Triple (fun w ↦ P w.drivers) (noteTx id op st : CoreM σ Unit) fun _ w ↦ P w.drivers := by
  apply Triple.ite
  · intro hended
    apply Triple.thenReturn
    apply Triple.bind (Q := fun _ w ↦ P w.drivers)
    · exact ⟨fun w hw ↦ hw⟩
    intro mgr
    cases mgr.findSlot id with
    | none => exact .pure fun w hw ↦ hw
    | some found => exact Triple.thenReturn ⟨fun w hw ↦ hw⟩
  · intro hopen
    exact .pure fun w hw ↦ hw

/-- Only a `tx.begin` outside a transaction calls `begin`, and on its own connection. -/
theorem txOnConn_begun {mgr : Manager} {id : ℕ} {s : Slot} (hconn : mgr.conn id = some s) {op : TxOp}
    {driver : Text} {handle : Handle} :
    Triple (fun w ↦ w.manager = mgr ∧ Begun begun w) (txOnConn (watch env) op id driver handle)
      fun _ w ↦ Begun begun w ∨ s.inTx = false ∧ Begun (handle :: begun) w := by
  have hinTx : mgr.inTx id = s.inTx := by
    obtain ⟨⟨i, s⟩, hfind, rfl⟩ := Option.map_eq_some_iff.1 hconn
    rw [Manager.inTx, hfind]
    rfl
  apply Triple.bind (getManager_spec fun w hw ↦ hw.1)
  intro m
  apply Triple.of_imp
  rintro rfl
  apply Triple.ite
  · intro hrefused
    exact .pure fun w hw ↦ .inl hw.2
  intro hallowed
  apply Triple.bind (Q := fun _ w ↦ Begun begun w ∨ s.inTx = false ∧ Begun (handle :: begun) w)
  · refine (runTx_begun.pre fun w hw ↦ hw.2).post fun _ w hw ↦ hw.imp_right fun hbegin ↦ ⟨?_, hbegin.2⟩
    have hfree : ¬ s.inTx = true := fun hset ↦ hallowed ⟨hbegin.1, hinTx.trans hset⟩
    exact Bool.eq_false_iff.2 hfree
  rintro ⟨st, msg⟩
  apply Triple.bind (noteTx_drivers (P := fun drivers : σ × List Handle ↦
    drivers.2 = begun ∨ s.inTx = false ∧ drivers.2 = handle :: begun))
  intro _
  apply Triple.ite
  · intro hfailed
    exact .pure fun w hw ↦ hw
  · intro hok
    exact .pure fun w hw ↦ hw

end Watch

/-- The requests on connections and their transactions. -/
def Op.IsSession : Op → Prop
  | .connOpen _ => True
  | .connClose _ => True
  | .tx _ _ => True
  | _ => False

/-- From `w` to `w'` the drivers began transactions on connections of `w` without one. -/
def BeginsOutside (w w' : World (σ × List Handle)) : Prop :=
  ∃ called, w'.drivers.2 = called ++ w.drivers.2 ∧ ∀ handle ∈ called,
    (∃ s ∈ w.manager.live, s.handle = handle) ∧
      ∀ s ∈ w.manager.live, s.handle = handle → s.inTx = false

theorem beginsOutside_of_begun {w w' : World (σ × List Handle)} (h : Begun w.drivers.2 w') :
    BeginsOutside w w' :=
  ⟨[], h, by simp⟩

theorem handle_beginsOutside {op : Op} (hop : op.IsSession) {w : World (σ × List Handle)}
    (hw : Consistent w) : BeginsOutside w ((op.handle (watch env)).run w).2 := by
  cases op with
  | connOpen params =>
    apply beginsOutside_of_begun
    refine (Triple.map ?_ : Triple (Begun w.drivers.2) (some <$> ipcMethodConnOpen (watch env) params)
      fun _ ↦ Begun w.drivers.2).run w rfl
    rw [ipcMethodConnOpen]
    split
    next driver hdriver =>
      split
      next => exact .pure fun w hw ↦ hw
      next dsn hdsn =>
        split
        next => exact .pure fun w hw ↦ hw
        next drv hdrv =>
          apply Triple.bind connManagerOpen_begun
          intro opened
          cases opened with
          | error failure => exact .pure fun w hw ↦ hw
          | ok id => exact .pure fun w hw ↦ hw
    next => exact .pure fun w hw ↦ hw
  | connClose params =>
    apply beginsOutside_of_begun
    refine (Triple.map ?_ : Triple (Begun w.drivers.2) (some <$> ipcMethodConnClose (watch env) params)
      fun _ ↦ Begun w.drivers.2).run w rfl
    rw [ipcMethodConnClose]
    split
    next => exact .pure fun w hw ↦ hw
    next id hid =>
      apply Triple.bind connManagerClose_begun
      intro st
      exact .ite (fun _ ↦ .pure fun w hw ↦ hw) fun _ ↦ .pure fun w hw ↦ hw
  | tx op params =>
    refine (Triple.map ?_ : Triple (fun v ↦ v.manager = w.manager ∧ Begun w.drivers.2 v)
      (some <$> txDispatch (watch env) op params) fun _ ↦ BeginsOutside w).run w ⟨rfl, rfl⟩
    rw [txDispatch]
    split
    next => exact .pure fun v hv ↦ beginsOutside_of_begun hv.2
    next id hid =>
      apply withConn_spec (fun v hv ↦ hv.1) fun v hv ↦ beginsOutside_of_begun hv.2
      intro i s hfind
      refine (txOnConn_begun (Manager.conn_of_find hfind)).post fun answer v hv ↦ ?_
      rcases hv with hv | ⟨hfree, hv⟩
      · exact beginsOutside_of_begun hv
      have hs : s ∈ w.manager.live :=
        (Manager.mem_live_of_conn (Manager.conn_of_find hfind)).1
      refine ⟨[s.handle], hv, fun handle hhandle ↦ ?_⟩
      rw [List.mem_singleton] at hhandle
      subst hhandle
      refine ⟨⟨s, hs, rfl⟩, fun t ht hhandle ↦ ?_⟩
      have howners := hw.holding.owners
      rw [Manager.holders, List.map_map] at howners
      rw [List.inj_on_of_nodup_map howners ht hs hhandle]
      exact hfree
  | _ => exact hop.elim

/-! ## The flag over any run -/

theorem tx_frame {w : World σ} (hw : w.manager.Numbered) {op : TxOp} {params : Option Json}
    {other : ℕ} (hother : ipcConnId params ≠ .ok other) :
    ((Op.handle env (.tx op params)).run w).2.manager.conn other = w.manager.conn other := by
  refine (Triple.map ?_ : Triple (fun v ↦ v.manager = w.manager) (some <$> txDispatch env op params)
    fun _ v ↦ v.manager.conn other = w.manager.conn other).run w rfl
  rw [txDispatch]
  split
  next => exact .pure fun v hv ↦ by rw [hv]
  next id hid =>
    apply withConn_spec (fun v hv ↦ hv) fun v hv ↦ by rw [hv]
    intro i s hfind
    refine (txOnConn_conn hw (Manager.conn_of_find hfind)).post fun answer v hv ↦ ?_
    rcases hv with ⟨-, hv⟩ | ⟨-, hsets⟩
    · rw [hv]
    · rw [hsets.conn, Function.update_of_ne fun heq ↦ hother (by rw [hid, heq])]

/-- What `in_tx` and the ids stand for after the requests `ops`. -/
structure TxFlagKept (env : Env σ) (drivers : σ) (ops : List Op) : Prop where
  flag : ∀ id, ((worldAfter env drivers ops).manager.conn id).isSome →
    ((worldAfter env drivers ops).manager.inTx id = true ↔
      InTransaction id (logOf env drivers ops))
  /-- No request calls `begin` on a connection with a transaction. -/
  begins : ∀ op : Op, op.IsSession →
    BeginsOutside (worldAfter (watch env) (drivers, []) ops)
      ((op.handle (watch env)).run (worldAfter (watch env) (drivers, []) ops)).2
  /-- A transaction method leaves every other connection as it is. -/
  frame : ∀ op params other, ipcConnId params ≠ .ok other →
    ((Op.handle env (.tx op params)).run (worldAfter env drivers ops)).2.manager.conn other =
      (worldAfter env drivers ops).manager.conn other
  once : (logOf env drivers ops).Pairwise fun x y ↦ ∀ id, Opens id x → ¬ Opens id y
  closed : ∀ x ∈ logOf env drivers ops, ∀ id, Closes id x →
    (worldAfter env drivers ops).manager.conn id = none
  /-- A request for an id without connection is refused and does nothing. -/
  stale : ∀ (op : Op) id, op.target = some id →
    (worldAfter env drivers ops).manager.conn id = none →
      (∃ e, ((op.handle env).run (worldAfter env drivers ops)).1 = some (.error e)) ∧
        ((op.handle env).run (worldAfter env drivers ops)).2 = worldAfter env drivers ops

theorem txFlagKept (env : Env σ) (drivers : σ) (ops : List Op)
    (hops : ∀ op ∈ ops, op ≠ .connManagerFree) : TxFlagKept env drivers ops := by
  have hlogged := worldAfter_logged env drivers hops
  have hwatched := worldAfter_consistent (watch env) (drivers, []) ops
  refine
    { flag := fun id hconn ↦ ?_
      begins := fun op hop ↦ handle_beginsOutside hop hwatched
      frame := fun op params other hother ↦ tx_frame hlogged.numbered hother
      once := hlogged.once
      closed := fun x hx id hclosed ↦ (hlogged.closed x hx id hclosed).2
      stale := fun op id htarget hnone ↦ (handle_none op htarget hnone).run _ rfl }
  obtain ⟨s, hs⟩ := Option.isSome_iff_exists.1 hconn
  rw [← hlogged.flag id s hs]
  obtain ⟨⟨i, s⟩, hfind, rfl⟩ := Option.map_eq_some_iff.1 hs
  rw [Manager.inTx, hfind]
  rfl

/-- Two requests: a connection, and a transaction on it. -/
def beginOne : List Op :=
  [.connOpen (some (.obj [("driver".toList, .str []), ("dsn".toList, .str [])])),
    .tx .begin (some (.obj [("connId".toList, .str (ipcConnIdFormat 1))]))]

theorem txFlagKept_beginOne :
    TxFlagKept (tableEnv fun _ ↦ none) (fun _ ↦ none) beginOne :=
  txFlagKept _ _ beginOne (by simp [beginOne])

end Squaero.Ipc
