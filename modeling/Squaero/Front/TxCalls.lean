import Squaero.Front.TxMode
import Squaero.Ipc.TxFlag

/-!
# Calls of runInTx

`runInTx` of `frontend/src/utils/txMode.ts` from await to await: a call starts with the session it finds, sends a
request and is resumed by the reply. Calls of several tabs share the session, and the core handles their requests in
the order in which they were sent.
-/

namespace Squaero.Front.TxCalls

open Squaero.Lib

/-! ## One call -/

/-- What a call waits for. -/
inductive Awaits
  | tx (verb : TxVerb)
  | beginFirst (opens implicitCommit : Bool)
  | query (opens implicitCommit : Bool)
  | implicitCommit
  deriving DecidableEq

/-- A call between two awaits, with the session `cur` that it holds. -/
structure Call where
  sql : Text
  cur : TxSession
  awaits : Awaits
  deriving DecidableEq

inductive Request
  | tx (verb : TxVerb)
  | query (sql : Text)
  deriving DecidableEq

/-- How a request settled, and the rows that the result of a query changed. -/
structure Reply where
  ok : Bool
  rows : Option ℤ
  deriving DecidableEq

def Call.request (c : Call) : Request :=
  match c.awaits with
  | .tx verb => .tx verb
  | .beginFirst _ _ => .tx .begin
  | .query _ _ => .query c.sql
  | .implicitCommit => .tx .commit

/-- `{ ...s, open, statements: 0, log: [] }` -/
def renewed (s : TxSession) (opened : Bool) : TxSession := { s with opened, statements := 0, log := [] }

/-- To the first await; a refused statement has none. -/
def runInTx (s : TxSession) (sql engine : Text) : Option Call :=
  match planStatement s sql engine with
  | .refuse => none
  | .tx verb => some ⟨sql, s, .tx verb⟩
  | .run beginFirst opens implicitCommit =>
    some ⟨sql, s, if beginFirst then .beginFirst opens implicitCommit else .query opens implicitCommit⟩

/-- A failed statement is listed too, with no row count. -/
def listed (c : Call) (reply : Reply) : TxSession :=
  { c.cur with
    statements := c.cur.statements + 1
    log := c.cur.log ++ [⟨jsTrim c.sql, if reply.ok then reply.rows else none⟩] }

/-- From an await to the next one or the end, with the session that is stored then. -/
def resume (c : Call) (reply : Reply) (store : TxSession) : TxSession × Option Call :=
  match c.awaits with
  | .tx verb =>
    if reply.ok then (renewed c.cur (verb = .begin), none)
    else if verb = .rollback then (renewed c.cur false, none)
    else (store, none)
  | .beginFirst opens implicitCommit =>
    if reply.ok then (renewed c.cur true, some ⟨c.sql, renewed c.cur true, .query opens implicitCommit⟩)
    else (store, none)
  | .query opens implicitCommit =>
    if implicitCommit then (store, some ⟨c.sql, c.cur, .implicitCommit⟩)
    else if opens then (if reply.ok then renewed c.cur true else store, none)
    else if c.cur.opened then (listed c reply, none)
    else (store, none)
  | .implicitCommit => (renewed c.cur false, none)

/-! ## The core -/

def txOp : TxVerb → Ipc.TxOp
  | .begin => .begin
  | .commit => .commit
  | .rollback => .rollback

/-- `in_tx` of the connection, and the statements handled since the transaction began. -/
structure CoreTx where
  inTx : Bool
  since : List Text
  deriving DecidableEq

/-- What a request leaves behind, once it is known whether it succeeded. -/
def CoreTx.after (core : CoreTx) (ok : Bool) : Request → CoreTx
  | .tx .begin => if ok then ⟨true, []⟩ else core
  | .tx .commit => if ok then ⟨false, []⟩ else core
  | .tx .rollback => ⟨false, []⟩
  | .query sql => ⟨core.inTx, core.since ++ [sql]⟩

/-- The core refuses to begin a second transaction; all else is up to the engine. -/
def CoreTx.succeeds (core : CoreTx) (ok : Bool) (r : Request) : Bool := ok && !(r = .tx .begin && core.inTx)

/-! ## Calls of several tabs -/

structure System where
  store : TxSession
  core : CoreTx
  /-- Calls whose requests the core has not handled, the oldest first. -/
  inbox : List Call
  /-- Calls whose replies have not arrived. -/
  outbox : List (Call × Reply)
  deriving DecidableEq

inductive Event
  | start (sql : Text)
  | handle (reply : Reply)
  | deliver

def step (engine : Text) (st : System) : Event → Option System
  | .start sql => some { st with inbox := st.inbox ++ (runInTx st.store sql engine).toList }
  | .handle reply =>
    match st.inbox with
    | [] => none
    | c :: inbox =>
      let ok := st.core.succeeds reply.ok c.request
      some { st with core := st.core.after ok c.request, inbox, outbox := st.outbox ++ [(c, ⟨ok, reply.rows⟩)] }
  | .deliver =>
    match st.outbox with
    | [] => none
    | (c, reply) :: outbox =>
      let (store, next) := resume c reply st.store
      some { st with store, inbox := st.inbox ++ next.toList, outbox }

def run (engine : Text) (st : System) (events : List Event) : Option System := events.foldlM (step engine) st

def idle (manual : Bool) : System := ⟨⟨manual, false, 0, []⟩, ⟨false, []⟩, [], []⟩

def Quiet (st : System) : Prop := st.inbox = [] ∧ st.outbox = []

/-- The indicator shows the transaction of the core and what was run in it. -/
def Agrees (store : TxSession) (core : CoreTx) : Prop :=
  store.opened = core.inTx ∧ (store.opened = true → store.log.map (·.sql) = core.since.map jsTrim)

def System.pending (st : System) : List Call := st.outbox.map Prod.fst ++ st.inbox

/-- `p` holds of each event of a run and the state it meets. -/
def along (engine : Text) (p : System → Event → Bool) : System → List Event → Bool
  | _, [] => true
  | st, e :: events => p st e && (step engine st e).all (along engine p · events)

/-! ## The flag of the core -/

section

open Squaero.Core Squaero.Ipc

variable {σ : Type} {env : Env σ} {id : ℕ} {s : Slot} {mgr : Manager} {params : Option Json}

theorem txOnConn_refuses (hconn : mgr.conn id = some s) (hinTx : s.inTx = true) {driver : Text} {handle : Handle} :
    Triple (fun w ↦ w.manager = mgr) (txOnConn env .begin id driver handle)
      fun answer w ↦ answer = .error alreadyInTx ∧ w.manager = mgr := by
  have hflag : mgr.inTx id = true := by
    obtain ⟨⟨i, s⟩, hfind, rfl⟩ := Option.map_eq_some_iff.1 hconn
    rw [Manager.inTx, hfind]
    exact hinTx
  apply Triple.bind (getManager_spec fun w hw ↦ hw)
  intro m
  apply Triple.of_imp
  rintro rfl
  apply Triple.ite
  · intro hrefused
    exact .pure fun w hw ↦ ⟨rfl, hw⟩
  · intro hallowed
    exact absurd ⟨rfl, hflag⟩ hallowed

/-- `tx_dispatch` keeps the flag of a connection as `CoreTx.after` says, and refuses what `succeeds` excludes. -/
theorem txDispatch_after {w : World σ} (hw : w.manager.Numbered) (hconn : w.manager.conn id = some s)
    (hid : ipcConnId params = .ok id) (verb : TxVerb) (since : List Text) :
    ∃ answer : Answer, ((Op.handle env (.tx (txOp verb) params)).run w).1 = some answer ∧
      (((Op.handle env (.tx (txOp verb) params)).run w).2.manager.conn id).map (·.inTx) =
        some ((CoreTx.mk s.inTx since).after answer.toOption.isSome (.tx verb)).inTx ∧
      (answer.toOption.isSome = true → (CoreTx.mk s.inTx since).succeeds true (.tx verb) = true) := by
  have hflag : Triple (fun v ↦ v.manager = w.manager) (Op.handle env (.tx (txOp verb) params)) fun answer v ↦
      ∃ a : Answer, answer = some a ∧ (v.manager.conn id).map (·.inTx) =
        some ((CoreTx.mk s.inTx since).after a.toOption.isSome (.tx verb)).inTx := by
    apply Triple.map
    rw [txDispatch, hid]
    refine (withConn_some hconn (txOnConn_conn hw hconn)).post fun answer v hv ↦ ⟨answer, rfl, ?_⟩
    rcases hv with ⟨⟨⟨e, rfl⟩, hop⟩, hv⟩ | ⟨hanswer, hsets⟩
    · rw [hv, hconn]
      cases verb with
      | rollback => exact absurd rfl hop
      | _ => rfl
    · rw [hsets.conn, Function.update_self]
      cases verb with
      | rollback => rfl
      | _ =>
        obtain ⟨result, rfl⟩ := hanswer.resolve_left (by intro hwrong; cases hwrong)
        rfl
  have hrefused : verb = .begin → s.inTx = true →
      Triple (fun v ↦ v.manager = w.manager) (Op.handle env (.tx (txOp verb) params)) fun answer _ ↦
        answer = some (.error alreadyInTx) := by
    rintro rfl hinTx
    apply Triple.map
    rw [txDispatch, hid]
    exact (withConn_some hconn (txOnConn_refuses hconn hinTx)).post fun answer v hv ↦ congrArg some hv.1
  obtain ⟨answer, hanswer, hafter⟩ := hflag.run w rfl
  refine ⟨answer, hanswer, hafter, fun hok ↦ ?_⟩
  unfold CoreTx.succeeds
  by_cases hbegin : verb = .begin
  · cases hinTx : s.inTx with
    | false => simp
    | true =>
      have herror := (hrefused hbegin hinTx).run w rfl
      rw [hanswer] at herror
      rw [Option.some.inj herror] at hok
      exact absurd hok Bool.false_ne_true
  · simp [hbegin]

end

/-! ## What calls wait for -/

/-- The statement of a call accounts for what it waits for. -/
def Lawful (engine : Text) (c : Call) : Prop :=
  match c.awaits with
  | .tx verb => ∃ bare, classifyTxStatement c.sql = some ⟨verb, bare⟩
  | .beginFirst opens implicitCommit => opens = false ∧ implicitCommit = false ∧ classifyTxStatement c.sql = none
  | .query opens implicitCommit =>
    (opens = true → classifyTxStatement c.sql = some ⟨.begin, false⟩) ∧
    (implicitCommit = true → commitsImplicitly c.sql engine = true ∧ c.cur.opened = true)
  | .implicitCommit => commitsImplicitly c.sql engine = true ∧ c.cur.opened = true

variable {engine : Text}

theorem planStatement_spec (s : TxSession) (sql engine : Text) :
    match planStatement s sql engine with
    | .refuse => True
    | .tx verb => ∃ bare, classifyTxStatement sql = some ⟨verb, bare⟩
    | .run beginFirst opens implicitCommit =>
      (beginFirst = true → opens = false ∧ implicitCommit = false ∧ classifyTxStatement sql = none) ∧
      (opens = true → classifyTxStatement sql = some ⟨.begin, false⟩) ∧
      (implicitCommit = true → commitsImplicitly sql engine = true ∧ s.opened = true) := by
  unfold planStatement
  cases hclass : classifyTxStatement sql with
  | none =>
    dsimp only
    split_ifs with hcommits
    · exact ⟨nofun, nofun, fun hopened ↦ ⟨hcommits, hopened⟩⟩
    · exact ⟨fun _ ↦ ⟨rfl, rfl, rfl⟩, nofun, nofun⟩
  | some statement =>
    obtain ⟨verb, bare⟩ := statement
    cases verb with
    | begin =>
      dsimp only
      split_ifs with hopened hbare
      · trivial
      · exact ⟨bare, rfl⟩
      · exact ⟨nofun, fun _ ↦ by rw [Bool.eq_false_iff.mpr hbare], nofun⟩
    | commit => exact ⟨bare, rfl⟩
    | rollback => exact ⟨bare, rfl⟩

theorem lawful_runInTx {s : TxSession} {sql : Text} {c : Call} (h : runInTx s sql engine = some c) :
    Lawful engine c ∧ c.sql = sql := by
  have hplan := planStatement_spec s sql engine
  unfold runInTx at h
  cases hstep : planStatement s sql engine with
  | refuse =>
    rw [hstep] at h
    exact absurd h nofun
  | tx verb =>
    rw [hstep] at h hplan
    obtain rfl := Option.some.inj h
    exact ⟨hplan, rfl⟩
  | run beginFirst opens implicitCommit =>
    rw [hstep] at h hplan
    obtain rfl := Option.some.inj h
    refine ⟨?_, rfl⟩
    cases beginFirst with
    | true => exact hplan.1 rfl
    | false => exact hplan.2

theorem lawful_resume {c c' : Call} {reply : Reply} {store : TxSession} (hc : Lawful engine c)
    (h : (resume c reply store).2 = some c') : Lawful engine c' ∧ c'.sql = c.sql := by
  obtain ⟨sql, cur, awaits⟩ := c
  cases awaits with
  | tx verb =>
    unfold resume at h
    dsimp only at h
    split_ifs at h
  | beginFirst opens implicitCommit =>
    obtain ⟨rfl, rfl, hnone⟩ := hc
    unfold resume at h
    dsimp only at h
    split_ifs at h
    obtain rfl := Option.some.inj h
    exact ⟨⟨nofun, nofun⟩, rfl⟩
  | query opens implicitCommit =>
    unfold resume at h
    dsimp only at h
    split_ifs at h with himplicit
    · obtain rfl := Option.some.inj h
      exact ⟨hc.2 himplicit, rfl⟩
  | implicitCommit => exact absurd h nofun

/-- What holds of the calls that a statement starts, and of the calls that these become, holds of all. -/
theorem pending_step {P : Call → Prop} {st st' : System} {e : Event}
    (hstart : ∀ s sql c, e = .start sql → runInTx s sql engine = some c → P c)
    (hresume : ∀ c c' reply store, P c → (resume c reply store).2 = some c' → P c')
    (h : ∀ c ∈ st.pending, P c) (hstep : step engine st e = some st') : ∀ c ∈ st'.pending, P c := by
  unfold System.pending at h ⊢
  cases e with
  | start sql =>
    obtain rfl := Option.some.inj hstep
    intro c hc
    rw [← List.append_assoc, List.mem_append] at hc
    rcases hc with hc | hc
    · exact h c hc
    · exact hstart st.store sql c rfl (Option.mem_toList.mp hc)
  | handle reply =>
    unfold step at hstep
    cases hinbox : st.inbox with
    | nil =>
      rw [hinbox] at hstep
      exact absurd hstep nofun
    | cons first inbox =>
      rw [hinbox] at hstep h
      obtain rfl := Option.some.inj hstep
      intro c hc
      refine h c ?_
      simpa using hc
  | deliver =>
    unfold step at hstep
    cases houtbox : st.outbox with
    | nil =>
      rw [houtbox] at hstep
      exact absurd hstep nofun
    | cons first outbox =>
      rw [houtbox] at hstep h
      obtain rfl := Option.some.inj hstep
      intro c hc
      rw [← List.append_assoc, List.mem_append] at hc
      rcases hc with hc | hc
      · exact h c (List.mem_cons_of_mem _ hc)
      · exact hresume first.1 c first.2 st.store (h first.1 List.mem_cons_self) (Option.mem_toList.mp hc)

theorem run_cons (st : System) (e : Event) (events : List Event) :
    run engine st (e :: events) = (step engine st e).bind fun st' ↦ run engine st' events := rfl

theorem pending_run {P : Call → Prop} {events : List Event}
    (hstart : ∀ s sql c, Event.start sql ∈ events → runInTx s sql engine = some c → P c)
    (hresume : ∀ c c' reply store, P c → (resume c reply store).2 = some c' → P c') {st st' : System}
    (h : ∀ c ∈ st.pending, P c) (hrun : run engine st events = some st') : ∀ c ∈ st'.pending, P c := by
  induction events generalizing st with
  | nil =>
    obtain rfl := Option.some.inj hrun
    exact h
  | cons e events ih =>
    rw [run_cons, Option.bind_eq_some_iff] at hrun
    obtain ⟨mid, hstep, hrest⟩ := hrun
    refine ih (fun s sql c hmem ↦ hstart s sql c (List.mem_cons_of_mem e hmem)) ?_ hrest
    refine pending_step (fun s sql c he ↦ hstart s sql c (he ▸ List.mem_cons_self)) hresume h hstep

/-! ## The indicator and the core -/

/-- Nobody else has changed what the indicator shows while a query of an ordinary statement was under way, and the
commit after a statement that committed by itself fails only where the core has nothing to commit. -/
def undisturbed (st : System) : Event → Bool
  | .start _ => true
  | .handle reply => st.inbox.head?.all fun c ↦ c.awaits = .implicitCommit → reply.ok = true ∨ st.core.inTx = false
  | .deliver => st.outbox.head?.all fun p ↦ p.1.awaits = .query false false →
    st.store.opened = p.1.cur.opened ∧ (p.1.cur.opened = true → st.store.log = p.1.cur.log)

def afterReplies (core : CoreTx) (replies : List (Call × Reply)) : CoreTx :=
  replies.foldl (fun core p ↦ core.after p.2.ok p.1.request) core

/-- Of the replies under way none is of a commit after an implicit one that failed within a transaction. -/
def Ending : CoreTx → List (Call × Reply) → Prop
  | _, [] => True
  | seen, p :: replies => (p.1.awaits = .implicitCommit → p.2.ok = true ∨ seen.inTx = false) ∧
    Ending (seen.after p.2.ok p.1.request) replies

theorem ending_concat (seen : CoreTx) (replies : List (Call × Reply)) (p : Call × Reply) :
    Ending seen (replies ++ [p]) ↔ Ending seen replies ∧
      (p.1.awaits = .implicitCommit → p.2.ok = true ∨ (afterReplies seen replies).inTx = false) := by
  induction replies generalizing seen with
  | nil => simp [Ending, afterReplies]
  | cons q replies ih =>
    rw [List.cons_append]
    unfold Ending
    rw [ih, and_assoc]
    rfl

/-- The core as it was when it had sent the replies that have arrived, and what the indicator shows of that. -/
structure Shows (st : System) (seen : CoreTx) : Prop where
  core : st.core = afterReplies seen st.outbox
  ending : Ending seen st.outbox
  agrees : (∃ c ∈ st.pending, c.awaits = .implicitCommit) ∨ Agrees st.store seen

theorem agrees_resume {c : Call} {reply : Reply} {store : TxSession} {seen : CoreTx}
    (hplain : ∀ opens implicitCommit, c.awaits = .query opens implicitCommit → opens = false ∧ implicitCommit = false)
    (hnow : c.awaits = .query false false →
      store.opened = c.cur.opened ∧ (c.cur.opened = true → store.log = c.cur.log))
    (hcommit : c.awaits = .implicitCommit → reply.ok = true ∨ seen.inTx = false)
    (h : c.awaits = .implicitCommit ∨ Agrees store seen) :
    Agrees (resume c reply store).1 (seen.after reply.ok c.request) := by
  obtain ⟨sql, cur, awaits⟩ := c
  obtain ⟨ok, rows⟩ := reply
  cases awaits with
  | tx verb =>
    have hagrees := h.resolve_left nofun
    cases ok with
    | true => cases verb with
      | begin => exact ⟨rfl, fun _ ↦ rfl⟩
      | commit => exact ⟨rfl, nofun⟩
      | rollback => exact ⟨rfl, nofun⟩
    | false => cases verb with
      | begin => exact hagrees
      | commit => exact hagrees
      | rollback => exact ⟨rfl, nofun⟩
  | beginFirst opens implicitCommit =>
    cases ok with
    | true => exact ⟨rfl, fun _ ↦ rfl⟩
    | false => exact h.resolve_left nofun
  | query opens implicitCommit =>
    obtain ⟨rfl, rfl⟩ := hplain opens implicitCommit rfl
    obtain ⟨hopened, hlog⟩ := hnow rfl
    obtain ⟨hflag, hlisted⟩ := h.resolve_left nofun
    dsimp only at hopened hlog
    unfold resume
    dsimp only
    rw [if_neg Bool.false_ne_true, if_neg Bool.false_ne_true]
    cases hcur : cur.opened with
    | true =>
      rw [hcur] at hopened
      have hsame := hlisted hopened
      rw [hlog hcur] at hsame
      rw [if_pos rfl]
      refine ⟨hcur.trans (hopened.symm.trans hflag), fun _ ↦ ?_⟩
      simp only [listed, Call.request, CoreTx.after, List.map_append, hsame, List.map_cons, List.map_nil]
    | false =>
      rw [hcur] at hopened
      rw [if_neg Bool.false_ne_true]
      exact ⟨hflag, fun hset ↦ absurd (hopened.symm.trans hset) Bool.false_ne_true⟩
  | implicitCommit =>
    cases ok with
    | true => exact ⟨rfl, nofun⟩
    | false => exact ⟨((hcommit rfl).resolve_left nofun).symm, nofun⟩

/-- No statement is a `BEGIN` with options. -/
def WithoutOptions (c : Call) : Prop := classifyTxStatement c.sql ≠ some ⟨.begin, false⟩

theorem shows_step {st st' : System} {e : Event} {seen : CoreTx}
    (hlawful : ∀ c ∈ st.pending, Lawful engine c ∧ WithoutOptions c) (hnow : undisturbed st e = true)
    (h : Shows st seen) (hstep : step engine st e = some st') : ∃ seen', Shows st' seen' := by
  cases e with
  | start sql =>
    obtain rfl := Option.some.inj hstep
    refine ⟨seen, h.core, h.ending, h.agrees.imp_left ?_⟩
    rintro ⟨c, hc, himplicit⟩
    refine ⟨c, ?_, himplicit⟩
    unfold System.pending at hc ⊢
    rw [← List.append_assoc]
    exact List.mem_append_left _ hc
  | handle reply =>
    unfold step at hstep
    unfold undisturbed at hnow
    cases hinbox : st.inbox with
    | nil =>
      rw [hinbox] at hstep
      exact absurd hstep nofun
    | cons c inbox =>
      rw [hinbox] at hstep hnow
      obtain rfl := Option.some.inj hstep
      refine ⟨seen, ?_, (ending_concat _ _ _).mpr ⟨h.ending, fun himplicit ↦ ?_⟩, h.agrees.imp_left ?_⟩
      · dsimp only
        unfold afterReplies
        rw [List.foldl_append]
        exact congrArg (CoreTx.after · _ _) h.core
      · dsimp only at himplicit ⊢
        rw [← h.core]
        refine (of_decide_eq_true hnow himplicit).imp_left fun hok ↦ ?_
        unfold CoreTx.succeeds Call.request
        rw [himplicit, hok]
        rfl
      · rintro ⟨c', hc', himplicit⟩
        refine ⟨c', ?_, himplicit⟩
        unfold System.pending at hc' ⊢
        rw [hinbox] at hc'
        simpa using hc'
  | deliver =>
    unfold step at hstep
    unfold undisturbed at hnow
    cases houtbox : st.outbox with
    | nil =>
      rw [houtbox] at hstep
      exact absurd hstep nofun
    | cons p outbox =>
      obtain ⟨c, reply⟩ := p
      have hending := h.ending
      have hcore := h.core
      rw [houtbox] at hstep hnow hending hcore
      obtain rfl := Option.some.inj hstep
      have hfirst : c ∈ st.pending := by
        unfold System.pending
        rw [houtbox]
        exact List.mem_cons_self
      obtain ⟨hc, hwithout⟩ := hlawful c hfirst
      refine ⟨seen.after reply.ok c.request, hcore, hending.2, ?_⟩
      by_cases himplicit : ∃ opens, c.awaits = .query opens true
      · left
        obtain ⟨opens, hawaits⟩ := himplicit
        refine ⟨⟨c.sql, c.cur, .implicitCommit⟩, ?_, rfl⟩
        have hnext : (resume c reply st.store).2 = some ⟨c.sql, c.cur, .implicitCommit⟩ := by
          unfold resume
          rw [hawaits]
          rfl
        exact List.mem_append_right _ (List.mem_append_right _ (Option.mem_toList.mpr hnext))
      · have hplain : ∀ opens implicitCommit, c.awaits = .query opens implicitCommit →
            opens = false ∧ implicitCommit = false := by
          intro opens implicitCommit hawaits
          unfold Lawful at hc
          rw [hawaits] at hc
          refine ⟨Bool.eq_false_iff.mpr fun hopens ↦ hwithout (hc.1 hopens), ?_⟩
          exact Bool.eq_false_iff.mpr fun hset ↦ himplicit ⟨opens, hset ▸ hawaits⟩
        have hstays (hagrees : c.awaits = .implicitCommit ∨ Agrees st.store seen) :
            Agrees (resume c reply st.store).1 (seen.after reply.ok c.request) :=
          agrees_resume hplain (of_decide_eq_true hnow) hending.1 hagrees
        rcases h.agrees with ⟨c', hc', himplicit'⟩ | hagrees
        · unfold System.pending at hc'
          rw [houtbox, List.map_cons, List.cons_append, List.mem_cons] at hc'
          rcases hc' with rfl | hc'
          · exact .inr (hstays (.inl himplicit'))
          · refine .inl ⟨c', ?_, himplicit'⟩
            unfold System.pending
            rw [← List.append_assoc]
            exact List.mem_append_left _ hc'
        · exact .inr (hstays (.inr hagrees))

theorem shows_run {events : List Event} {st st' : System} {seen : CoreTx}
    (hwithout : ∀ sql, Event.start sql ∈ events → classifyTxStatement sql ≠ some ⟨.begin, false⟩)
    (hlawful : ∀ c ∈ st.pending, Lawful engine c ∧ WithoutOptions c) (hnow : along engine undisturbed st events = true)
    (h : Shows st seen) (hrun : run engine st events = some st') : ∃ seen', Shows st' seen' := by
  induction events generalizing st seen with
  | nil =>
    obtain rfl := Option.some.inj hrun
    exact ⟨seen, h⟩
  | cons e events ih =>
    rw [run_cons, Option.bind_eq_some_iff] at hrun
    obtain ⟨mid, hstep, hrest⟩ := hrun
    unfold along at hnow
    rw [Bool.and_eq_true, hstep, Option.all_some] at hnow
    obtain ⟨hfirst, hothers⟩ := hnow
    obtain ⟨seen', hmid⟩ := shows_step hlawful hfirst h hstep
    refine ih (fun sql hmem ↦ hwithout sql (List.mem_cons_of_mem e hmem)) ?_ hothers hmid hrest
    refine pending_step ?_ ?_ hlawful hstep
    · rintro s sql c rfl hc
      obtain ⟨hlaw, rfl⟩ := lawful_runInTx hc
      exact ⟨hlaw, hwithout c.sql List.mem_cons_self⟩
    · intro c c' reply store hc hnext
      obtain ⟨hlaw, hsql⟩ := lawful_resume hc.1 hnext
      refine ⟨hlaw, ?_⟩
      unfold WithoutOptions
      rw [hsql]
      exact hc.2

/-- With no call pending the indicator shows the transaction of the core and what was run in it. -/
theorem run_agrees (engine : Text) (manual : Bool) (events : List Event) (st : System)
    (hwithout : ∀ sql, Event.start sql ∈ events → classifyTxStatement sql ≠ some ⟨.begin, false⟩)
    (hnow : along engine undisturbed (idle manual) events = true) (hrun : run engine (idle manual) events = some st)
    (hquiet : Quiet st) : Agrees st.store st.core := by
  have hidle : Shows (idle manual) ⟨false, []⟩ := ⟨rfl, trivial, .inr ⟨rfl, nofun⟩⟩
  obtain ⟨seen, h⟩ := shows_run hwithout (fun c hc ↦ absurd hc List.not_mem_nil) hnow hidle hrun
  obtain ⟨hinbox, houtbox⟩ := hquiet
  have hcore : st.core = seen := by
    rw [h.core, houtbox]
    rfl
  rw [hcore]
  refine h.agrees.resolve_left ?_
  rintro ⟨c, hc, -⟩
  unfold System.pending at hc
  rw [hinbox, houtbox] at hc
  exact List.not_mem_nil hc

/-- Two tabs, one after the other: the second statement is listed behind the first. -/
def oneAfterAnother : List Event :=
  [.start "UPDATE t SET x = 1".toList, .handle ⟨true, none⟩, .deliver, .handle ⟨true, some 3⟩, .deliver,
    .start "DELETE FROM t".toList, .handle ⟨false, none⟩, .deliver]

theorem run_agrees_oneAfterAnother :
    Agrees ⟨true, true, 2, [⟨"UPDATE t SET x = 1".toList, some 3⟩, ⟨"DELETE FROM t".toList, none⟩]⟩
      ⟨true, ["UPDATE t SET x = 1".toList, "DELETE FROM t".toList]⟩ :=
  run_agrees "sqlite".toList true oneAfterAnother
    ⟨⟨true, true, 2, [⟨"UPDATE t SET x = 1".toList, some 3⟩, ⟨"DELETE FROM t".toList, none⟩]⟩,
      ⟨true, ["UPDATE t SET x = 1".toList, "DELETE FROM t".toList]⟩, [], []⟩
    (by simp [oneAfterAnother]; decide) (by decide) (by decide) ⟨rfl, rfl⟩

/-- A second tab commits while the first has begun and not yet sent its statement. -/
def overtaken : List Event :=
  [.start "UPDATE t SET x = 1".toList, .start "COMMIT".toList, .handle ⟨true, none⟩, .handle ⟨true, none⟩,
    .deliver, .deliver, .handle ⟨true, some 3⟩, .deliver]

theorem run_overtaken :
    (∀ sql, Event.start sql ∈ overtaken → classifyTxStatement sql ≠ some ⟨.begin, false⟩) ∧
    ∃ st, run "sqlite".toList (idle true) overtaken = some st ∧ Quiet st ∧ st.store.opened = true ∧
      st.core.inTx = false ∧ ¬ Agrees st.store st.core := by
  refine ⟨by simp [overtaken]; decide, ?_⟩
  exact ⟨⟨⟨true, true, 1, [⟨"UPDATE t SET x = 1".toList, some 3⟩]⟩, ⟨false, ["UPDATE t SET x = 1".toList]⟩, [], []⟩,
    (by decide), ⟨rfl, rfl⟩, rfl, rfl, fun h ↦ absurd h.1 (by decide)⟩

/-! ## Commits -/

theorem bareCommit_of_classify {sql : Text} {bare : Bool} (h : classifyTxStatement sql = some ⟨.commit, bare⟩) :
    bareCommit (normalized sql) = true := by
  unfold classifyTxStatement at h
  dsimp only at h
  split_ifs at h with hbegin hcommit hrollback hoptions
  · simp at h
  · exact hcommit
  · simp at h
  · simp at h

theorem of_lawful_commit {c : Call} (hc : Lawful engine c) (hcommit : c.request = .tx .commit) :
    bareCommit (normalized c.sql) = true ∨ commitsImplicitly c.sql engine = true ∧ c.cur.opened = true := by
  obtain ⟨sql, cur, awaits⟩ := c
  cases awaits with
  | tx verb =>
    obtain rfl : verb = .commit := by simpa [Call.request] using hcommit
    obtain ⟨bare, hclass⟩ := hc
    exact .inl (bareCommit_of_classify hclass)
  | beginFirst opens implicitCommit => exact absurd hcommit (by simp [Call.request])
  | query opens implicitCommit => exact absurd hcommit (by simp [Call.request])
  | implicitCommit => exact .inr hc

/-- A query that was rejected closes nothing. -/
theorem resume_rejected (rows : Option ℤ) {c : Call} {store : TxSession} (hc : Lawful engine c) {sql : Text}
    (hquery : c.request = .query sql) (hcommits : commitsImplicitly c.sql engine = false) (hopened : store.opened = true) :
    (resume c ⟨false, rows⟩ store).1.opened = true ∧ (resume c ⟨false, rows⟩ store).2 = none := by
  obtain ⟨sql', cur, awaits⟩ := c
  cases awaits with
  | query opens implicitCommit =>
    have hplain : implicitCommit = false :=
      Bool.eq_false_iff.mpr fun hset ↦ absurd (hc.2 hset).1 (Bool.eq_false_iff.mp hcommits)
    unfold resume
    dsimp only
    rw [hplain, if_neg Bool.false_ne_true, if_neg Bool.false_ne_true]
    cases opens with
    | true => exact ⟨hopened, rfl⟩
    | false =>
      rw [if_neg Bool.false_ne_true]
      cases hcur : cur.opened with
      | true => exact ⟨hcur, rfl⟩
      | false => exact ⟨hopened, rfl⟩
  | _ => exact absurd hquery (by simp [Call.request])

/-- What calls do to a transaction that is open, of all that they send and receive from a state on. -/
structure KeepsOpen (engine : Text) (st : System) : Prop where
  commits : ∀ c ∈ st.pending, c.request = .tx .commit →
    bareCommit (normalized c.sql) = true ∨ commitsImplicitly c.sql engine = true ∧ c.cur.opened = true
  rejected : ∀ c reply outbox sql, st.outbox = (c, reply) :: outbox → c.request = .query sql → reply.ok = false →
    commitsImplicitly c.sql engine = false → st.store.opened = true → ∀ st', step engine st .deliver = some st' →
      st'.store.opened = true ∧ st'.core = st.core ∧ st'.inbox = st.inbox
  queried : ∀ c inbox sql, st.inbox = c :: inbox → c.request = .query sql → ∀ reply st',
    step engine st (.handle reply) = some st' → st'.store = st.store ∧ st'.core.inTx = st.core.inTx

/-- A misspelt statement on MySQL, which the server refuses before it commits anything. -/
def misspelt : List Event :=
  [.start "BEGIN".toList, .handle ⟨true, none⟩, .deliver, .start "ALTER TABEL nope ADD c int".toList,
    .handle ⟨false, none⟩, .deliver]

/-- The call that commits behind it. -/
def committing : Call := ⟨"ALTER TABEL nope ADD c int".toList, ⟨false, true, 0, []⟩, .implicitCommit⟩

def refused : System := ⟨⟨false, true, 0, []⟩, ⟨true, ["ALTER TABEL nope ADD c int".toList]⟩, [committing], []⟩

end Squaero.Front.TxCalls
