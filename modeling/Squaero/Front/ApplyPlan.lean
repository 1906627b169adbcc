import Squaero.Front.Edit

/-!
# When applying a plan tells the truth

What a call adds to the requests sent, and from it what the core answered when `applyPlan` says that
it committed or that a new transaction is open.
-/

namespace Squaero.Front

open Squaero.Lib

variable {α β : Type} {engine connId : Text} {request : Request} {reply : Reply} {sent more : List Sent}

/-! ## What a call sends -/

/-- Whatever was sent before, `m` settles with `r` and sends `more`. -/
def Sends (m : CallM α) (r : Except JsError α) (more : List Sent) : Prop :=
  ∀ sent, m.settle sent = (r, sent ++ more)

theorem sends_pure (a : α) : Sends (pure a : CallM α) (.ok a) [] := fun sent ↦ by simp

theorem Sends.bind {m : CallM α} {f : α → CallM β} {a : α} {r : Except JsError β}
    {more' : List Sent} (hm : Sends m (.ok a) more) (hf : Sends (f a) r more') :
    Sends (m >>= f) r (more ++ more') := fun sent ↦ by
  rw [Async.settle_bind, hm sent, ← List.append_assoc]
  exact hf (sent ++ more)

theorem Sends.bind_error {m : CallM α} {f : α → CallM β} {e : JsError} (hm : Sends m (.error e) more) :
    Sends (m >>= f) (.error e) more := fun sent ↦ by
  rw [Async.settle_bind, hm sent]

theorem Sends.attempt {m : CallM α} {r : Except JsError α} (hm : Sends m r more) :
    Sends m.attempt (.ok r) more := fun sent ↦ by
  rw [Async.settle_attempt, hm sent]

theorem rpc_sends (request : Request) (answer : Except Text Response) :
    Sends (rpc request answer) (answer.mapError .other) [(request, answer)] := fun sent ↦ by
  cases answer <;> rfl

/-- The answers of the core to one call: a success, if any, is the last, and it is what the call
resolves with. -/
structure Answers (request : Request) (r : Except JsError Response) (more : List Sent) : Prop where
  method : ∀ x ∈ more, x.1.method = request.method
  success : ∀ result, r = .ok (.success result) →
    ∃ before last, more = before ++ [(last, .ok (.success result))]
  otherwise : (∀ result, r ≠ .ok (.success result)) → ∀ x ∈ more, ∀ result, x.2 ≠ .ok (.success result)

/-- An attempt either ends the call, or met an error and lets it start over. -/
theorem callOnce_sends (engine : Text) (request : Request) (attempt : Attempt) (retried : Bool) :
    (∃ r more, Sends (callOnce engine request attempt retried) (r.map .inl) more ∧
        Answers request r more) ∨
      retried = false ∧ ∃ session code message data,
        Sends (callOnce engine request attempt retried) (.ok (.inr session))
          [(request, .ok (.error code message data))] := by
  have hrpc : (∃ r more, Sends (do
        let res ← rpc request attempt.answer
        return afterAnswer request retried attempt.lost res) (r.map .inl) more ∧
        Answers request r more) ∨
      retried = false ∧ ∃ session code message data, Sends (do
          let res ← rpc request attempt.answer
          return afterAnswer request retried attempt.lost res) (.ok (.inr session))
          [(request, .ok (.error code message data))] := by
    have hsends := rpc_sends request attempt.answer
    cases hanswer : attempt.answer with
    | error message =>
      rw [hanswer] at hsends
      refine .inl ⟨.error (.other message), [(request, .error message)], hsends.bind_error, ?_⟩
      exact ⟨by simp, by simp, by simp⟩
    | ok res =>
      rw [hanswer] at hsends
      have hafter : Sends (do
          let res ← rpc request (.ok res)
          return afterAnswer request retried attempt.lost res)
          (.ok (afterAnswer request retried attempt.lost res)) [(request, .ok res)] :=
        hsends.bind (sends_pure _)
      cases res with
      | success result =>
        refine .inl ⟨.ok (.success result), _, hafter, by simp, fun result' h ↦ ?_, ?_⟩
        · cases h
          exact ⟨[], request, rfl⟩
        · exact fun h ↦ absurd rfl (h result)
      | error code message data =>
        have herror (data' : Option Json) :
            Answers request (.ok (.error code message data'))
              [(request, .ok (.error code message data))] :=
          ⟨by simp, by simp, by simp⟩
        rw [afterAnswer] at hafter
        split at hafter
        next hlost =>
          simp only at hafter
          split at hafter
          next session hsession =>
            split at hafter
            next hretry =>
              refine .inr ⟨?_, session, code, message, data, hafter⟩
              cases retried with
              | false => rfl
              | true => simp [mayRetry] at hretry
            next => exact .inl ⟨.ok _, _, hafter, herror _⟩
          next => exact .inl ⟨.ok _, _, hafter, herror _⟩
        next => exact .inl ⟨.ok _, _, hafter, herror _⟩
  rw [callOnce]
  split
  next message writes hblocked hwrites =>
    refine .inl ⟨.ok (.error safeModeBlocked message none), [], sends_pure _, ?_⟩
    exact ⟨by simp, by simp, by simp⟩
  next => exact hrpc

theorem call_sends (engine : Text) (request : Request) (reply : Reply) :
    ∃ r more, Sends (call engine request reply) r more ∧ Answers request r more := by
  rw [call]
  rcases callOnce_sends engine request reply.first false with
    ⟨r, more, hsends, hanswers⟩ | ⟨-, session, code, message, data, hsends⟩
  · refine ⟨r, more, ?_, hanswers⟩
    cases r with
    | error e => exact hsends.bind_error
    | ok res =>
      rw [← List.append_nil more]
      exact hsends.bind (sends_pure res)
  rcases callOnce_sends engine (request.withConnId session) reply.second true
    with ⟨r, more, hagain, hanswers⟩ | ⟨hfalse, -⟩
  · refine ⟨r, _, (hsends.bind (?_ : Sends _ r more)), ?_⟩
    · cases r with
      | error e => exact hagain.bind_error
      | ok res =>
        rw [← List.append_nil more]
        exact hagain.bind (sends_pure res)
    · refine ⟨fun x hx ↦ ?_, fun result h ↦ ?_, fun h x hx ↦ ?_⟩
      · rcases List.mem_cons.1 hx with rfl | hx
        · rfl
        · exact hanswers.method x hx
      · obtain ⟨before, last, rfl⟩ := hanswers.success result h
        exact ⟨_ :: before, last, rfl⟩
      · rcases List.mem_cons.1 hx with rfl | hx
        · simp
        · exact hanswers.otherwise h x hx
  · cases hfalse

/-- What a call resolves with, or why it rejects. -/
def respond (engine : Text) (request : Request) (reply : Reply) : Except JsError Response :=
  ((call engine request reply).settle []).1

theorem call_respond (engine : Text) (request : Request) (reply : Reply) :
    ∃ more, Sends (call engine request reply) (respond engine request reply) more ∧
      Answers request (respond engine request reply) more := by
  obtain ⟨r, more, hsends, hanswers⟩ := call_sends engine request reply
  have hr : respond engine request reply = r := by rw [respond, hsends]
  exact ⟨more, hr ▸ hsends, hr ▸ hanswers⟩

/-! ## The plan -/

def IsSuccess (r : Except JsError Response) : Prop := ∃ result, r = .ok (.success result)

def IsErrorResponse (r : Except JsError Response) : Prop :=
  ∃ code message data, r = .ok (.error code message data)

/-- The core answered a request of this method with a success. -/
def AnsweredSuccess (method : String) (sent : List Sent) : Prop :=
  ∃ request result, request.method = method.toList ∧ (request, .ok (.success result)) ∈ sent

/-- The core answered the last request of this method with a success. -/
def LastAnsweredSuccess (method : String) (sent : List Sent) : Prop :=
  ∃ before request result after, sent = before ++ (request, .ok (.success result)) :: after ∧
    request.method = method.toList ∧ ∀ x ∈ after, x.1.method ≠ method.toList

/-- What `applyPlan` returns is what the core said. -/
structure Truthful (settled : Except JsError ApplyOutcome × List Sent) : Prop where
  committed : settled.1 = .ok .ok → AnsweredSuccess "tx.commit" settled.2
  reopened : ∀ error failedIndex, settled.1 = .ok (.failed error failedIndex true) →
    LastAnsweredSuccess "tx.begin" settled.2

/-- The change of an item goes through. -/
def ItemSucceeds (engine connId : Text) (target : EditTarget) (item : PlanItem × Reply) : Prop :=
  IsSuccess (respond engine (planRequest connId target false item.1) item.2)

/-- `tx.commit` is answered with no error response when all changes went through, and neither is
`tx.begin` when one did not or `tx.commit` was not answered at all. -/
structure TxHonoured (engine connId : Text) (target : EditTarget) (plan : List (PlanItem × Reply))
    (replies : PlanReplies) : Prop where
  commit : (∀ item ∈ plan, ItemSucceeds engine connId target item) →
    ¬ IsErrorResponse (respond engine (txRequest "tx.commit" connId) replies.commit)
  begin : ((∃ item ∈ plan, ¬ ItemSucceeds engine connId target item) ∨
      ∃ e, respond engine (txRequest "tx.commit" connId) replies.commit = .error e) →
    ¬ IsErrorResponse (respond engine (txRequest "tx.begin" connId) replies.begin)

section Plan

variable {target : EditTarget} {plan : List (PlanItem × Reply)} {replies : PlanReplies}

/-- A transaction method resolves unless the bridge rejects, with an error response too. -/
theorem tx_sends (engine connId : Text) (method : String) (reply : Reply) :
    ∃ more, Sends (do let _ ← call engine (txRequest method connId) reply : CallM Unit)
        ((respond engine (txRequest method connId) reply).map fun _ ↦ ()) more ∧
      Answers (txRequest method connId) (respond engine (txRequest method connId) reply) more := by
  obtain ⟨more, hsends, hanswers⟩ := call_respond engine (txRequest method connId) reply
  refine ⟨more, ?_, hanswers⟩
  cases hr : respond engine (txRequest method connId) reply with
  | error e =>
    rw [hr] at hsends
    exact hsends.bind_error
  | ok res =>
    rw [hr] at hsends
    rw [← List.append_nil more]
    exact hsends.bind (sends_pure ())

theorem planRequest_method (item : PlanItem) :
    (planRequest connId target false item).method ∈ rowMethods := by
  cases item with
  | update => exact .tail _ (.head _)
  | delete => exact .tail _ (.tail _ (.head _))
  | insert => exact .head _

theorem runPlanItem_sends (engine connId : Text) (target : EditTarget) (item : PlanItem × Reply) :
    ∃ r more, Sends (runPlanItem engine connId target item.1 item.2) r more ∧
      ((∃ a, r = .ok a) ↔ ItemSucceeds engine connId target item) ∧
      ∀ x ∈ more, x.1.method ∈ rowMethods := by
  obtain ⟨more, hsends, hanswers⟩ :=
    call_respond engine (planRequest connId target false item.1) item.2
  have hmethod : ∀ x ∈ more, x.1.method ∈ rowMethods := by
    intro x hx
    rw [hanswers.method x hx]
    exact planRequest_method item.1
  rw [ItemSucceeds, runPlanItem]
  cases hr : respond engine (planRequest connId target false item.1) item.2 with
  | error e =>
    rw [hr] at hsends
    exact ⟨.error e, more, hsends.bind_error, by simp [IsSuccess], hmethod⟩
  | ok res =>
    rw [hr] at hsends
    have hparse : Sends (Async.settled (parseRowResult res) : CallM RowResult) (parseRowResult res) [] :=
      fun sent ↦ by simp
    refine ⟨parseRowResult res, more ++ [], hsends.bind hparse, ?_, by simpa using hmethod⟩
    cases res with
    | success result => simp [parseRowResult, IsSuccess]
    | error code message data => simp [parseRowResult, IsSuccess]

/-- The items run until one fails. -/
theorem runItems_sends (engine connId : Text) (target : EditTarget) (replies : PlanReplies)
    (plan : List (PlanItem × Reply)) (i : ℕ) :
    ∃ failed more, Sends (runItems (planEffects engine connId target replies) i plan) (.ok failed) more ∧
      (failed = none ↔ ∀ item ∈ plan, ItemSucceeds engine connId target item) ∧
      ∀ x ∈ more, x.1.method ∈ rowMethods := by
  induction plan generalizing i with
  | nil => exact ⟨none, [], sends_pure none, by simp, by simp⟩
  | cons item plan ih =>
    obtain ⟨r, more, hsends, hok, hmethod⟩ :=
      runPlanItem_sends engine connId target item
    have hattempt := hsends.attempt
    rw [runItems]
    cases r with
    | error e =>
      refine ⟨some (i, e), more ++ [], hattempt.bind (sends_pure _), ?_, by simpa using hmethod⟩
      have hfails : ¬ ItemSucceeds engine connId target item := by
        rw [← hok]
        simp
      simp [hfails]
    | ok a =>
      obtain ⟨failed, more', hrest, hfailed, hmethod'⟩ := ih (i + 1)
      refine ⟨failed, more ++ more', hattempt.bind hrest, ?_, fun x hx ↦ ?_⟩
      · have hsucceeds : ItemSucceeds engine connId target item := hok.1 ⟨a, rfl⟩
        simp [hfailed, hsucceeds]
      · rcases List.mem_append.1 hx with hx | hx
        · exact hmethod x hx
        · exact hmethod' x hx

/-- After a failure, `reopened` says that the call of `tx.begin` resolved. -/
theorem abandon_sends (engine connId : Text) (target : EditTarget) (replies : PlanReplies) (error : JsError) (failedIndex : Option ℕ) :
    ∃ reopened first last, Sends (abandon (planEffects engine connId target replies) error failedIndex)
        (.ok (.failed error failedIndex reopened)) (first ++ last) ∧
      Answers (txRequest "tx.begin" connId)
        (respond engine (txRequest "tx.begin" connId) replies.begin) last ∧
      (∀ x ∈ first, x.1.method ≠ "tx.begin".toList) ∧
      (reopened = true ↔ IsSuccess (respond engine (txRequest "tx.begin" connId) replies.begin) ∨
        IsErrorResponse (respond engine (txRequest "tx.begin" connId) replies.begin)) := by
  obtain ⟨first, hrollback, hfirst⟩ :=
    tx_sends engine connId "tx.rollback" replies.rollback
  obtain ⟨last, hbegin, hlast⟩ :=
    tx_sends engine connId "tx.begin" replies.begin
  have hmethod : ∀ x ∈ first, x.1.method ≠ "tx.begin".toList := fun x hx ↦ by
    rw [hfirst.method x hx]
    change "tx.rollback".toList ≠ "tx.begin".toList
    decide
  cases hr : respond engine (txRequest "tx.begin" connId) replies.begin with
  | error e =>
    rw [hr] at hbegin hlast
    refine ⟨false, first, last, ?_, hlast, hmethod, by simp [IsSuccess, IsErrorResponse]⟩
    rw [← List.append_nil last]
    exact hrollback.attempt.bind (hbegin.attempt.bind (sends_pure _))
  | ok res =>
    rw [hr] at hbegin hlast
    refine ⟨true, first, last, ?_, hlast, hmethod, ?_⟩
    · rw [← List.append_nil last]
      exact hrollback.attempt.bind (hbegin.attempt.bind (sends_pure _))
    · cases res <;> simp [IsSuccess, IsErrorResponse]

/-- A failed plan tells the truth about its new transaction unless `tx.begin` was answered with an
error response. -/
theorem abandon_truthful (error : JsError) (failedIndex : Option ℕ)
    (hsent : ∀ x ∈ sent, x.1.method ≠ "tx.begin".toList) :
    Truthful ((abandon (planEffects engine connId target replies) error failedIndex).settle sent) ↔
      ¬ IsErrorResponse (respond engine (txRequest "tx.begin" connId) replies.begin) := by
  obtain ⟨reopened, first, last, hsends, hlast, hfirst, hreopened⟩ :=
    abandon_sends engine connId target replies error failedIndex
  rw [hsends sent]
  constructor
  · intro htruthful herror
    obtain rfl : reopened = true := hreopened.2 (.inr herror)
    obtain ⟨before, request, result, after, hsplit, hbegin, -⟩ :=
      htruthful.reopened error failedIndex rfl
    have hmem : (request, .ok (.success result)) ∈ before ++ (request, .ok (.success result)) :: after :=
      List.mem_append_right _ (.head _)
    rw [← hsplit] at hmem
    rcases List.mem_append.1 hmem with hmem | hmem
    · exact hsent _ hmem hbegin
    rcases List.mem_append.1 hmem with hmem | hmem
    · exact hfirst _ hmem hbegin
    refine hlast.otherwise (fun result hsuccess ↦ ?_) _ hmem result rfl
    obtain ⟨code, message, data, herror⟩ := herror
    cases hsuccess.symm.trans herror
  · intro herror
    refine ⟨fun h ↦ (by cases h), fun error' index' h ↦ ?_⟩
    cases h
    obtain ⟨result, hsuccess⟩ := (hreopened.1 rfl).resolve_right herror
    obtain ⟨before, request, rfl⟩ := hlast.success result hsuccess
    refine ⟨sent ++ (first ++ before), request, result, [], by simp, ?_, by simp⟩
    exact hlast.method (request, .ok (.success result)) (by simp)

/-- Once all items went through, what is said of the commit. -/
theorem committed_truthful (hsent : ∀ x ∈ sent, x.1.method ∈ rowMethods)
    (hresponse : ∃ res, respond engine (txRequest "tx.commit" connId) replies.commit = .ok res)
    (hcommit : Sends (do let _ ← call engine (txRequest "tx.commit" connId) replies.commit : CallM Unit)
      ((respond engine (txRequest "tx.commit" connId) replies.commit).map fun _ ↦ ()) more)
    (hanswers : Answers (txRequest "tx.commit" connId)
      (respond engine (txRequest "tx.commit" connId) replies.commit) more) :
    Truthful (.ok .ok, sent ++ more) ↔
      ¬ IsErrorResponse (respond engine (txRequest "tx.commit" connId) replies.commit) := by
  constructor
  · intro htruthful herror
    obtain ⟨request, result, hmethod, hmem⟩ := htruthful.committed rfl
    rcases List.mem_append.1 hmem with hmem | hmem
    · have hrow := hsent _ hmem
      rw [hmethod] at hrow
      revert hrow
      decide
    · refine hanswers.otherwise (fun result hsuccess ↦ ?_) _ hmem result rfl
      obtain ⟨code, message, data, herror⟩ := herror
      cases hsuccess.symm.trans herror
  · intro herror
    refine ⟨fun _ ↦ ?_, fun _ _ h ↦ (by cases h)⟩
    obtain ⟨res, hres⟩ := hresponse
    cases res with
    | success result =>
      obtain ⟨before, request, rfl⟩ := hanswers.success result hres
      exact ⟨request, result, hanswers.method (request, .ok (.success result)) (by simp), by simp⟩
    | error code message data => exact absurd ⟨code, message, data, hres⟩ herror

end Plan

/-- `applyPlan` tells the truth exactly where the transaction methods it relies on are not answered
with error responses. -/
theorem applyPlan_truthful_iff (engine connId : Text) (target : EditTarget)
    (plan : List (PlanItem × Reply)) (replies : PlanReplies) :
    Truthful ((applyPlan (planEffects engine connId target replies) plan).settle []) ↔
      TxHonoured engine connId target plan replies := by
  obtain ⟨failed, more, hitems, hfailed, hmethod⟩ := runItems_sends engine connId target
    replies plan 0
  have hbegin : ∀ x ∈ more, x.1.method ≠ "tx.begin".toList := by
    intro x hx heq
    have hrow := hmethod x hx
    rw [heq] at hrow
    revert hrow
    decide
  rw [applyPlan, Async.settle_bind, hitems [], List.nil_append]
  cases failed with
  | some failure =>
    obtain ⟨i, error⟩ := failure
    refine (abandon_truthful error (some i) hbegin).trans ?_
    have hnot : ∃ item ∈ plan, ¬ ItemSucceeds engine connId target item := by
      by_contra hall
      have hnone := hfailed.2 fun item hitem ↦ by
        by_contra hfails
        exact hall ⟨item, hitem, hfails⟩
      cases hnone
    obtain ⟨item, hitem, hfails⟩ := hnot
    exact ⟨fun h ↦ ⟨fun hall ↦ absurd (hall item hitem) hfails, fun _ ↦ h⟩,
      fun h ↦ h.begin (.inl ⟨item, hitem, hfails⟩)⟩
  | none =>
    have hall := hfailed.1 rfl
    obtain ⟨more', hcommit, hanswers⟩ :=
      tx_sends engine connId "tx.commit" replies.commit
    have hnone : ¬ ∃ item ∈ plan, ¬ ItemSucceeds engine connId target item := by
      rintro ⟨item, hitem, hfails⟩
      exact hfails (hall item hitem)
    change Truthful ((Async.attempt (txCommit engine connId replies.commit) >>= _).settle more) ↔ _
    have hattempt := hcommit.attempt more
    change (Async.attempt (txCommit engine connId replies.commit)).settle more = _ at hattempt
    rw [Async.settle_bind, hattempt]
    cases hr : respond engine (txRequest "tx.commit" connId) replies.commit with
    | error e =>
      have hbegin' : ∀ x ∈ more ++ more', x.1.method ≠ "tx.begin".toList := by
        intro x hx
        rcases List.mem_append.1 hx with hx | hx
        · exact hbegin x hx
        · rw [hanswers.method x hx]
          change "tx.commit".toList ≠ "tx.begin".toList
          decide
      refine (abandon_truthful e none hbegin').trans ?_
      refine ⟨fun h ↦ ⟨fun _ ⟨_, _, _, herror⟩ ↦ ?_, fun _ ↦ h⟩, fun h ↦ h.begin (.inr ⟨e, hr⟩)⟩
      cases hr.symm.trans herror
    | ok res =>
      have htruthful := committed_truthful hmethod ⟨res, hr⟩ hcommit hanswers
      refine Iff.trans htruthful ⟨fun h ↦ ⟨fun _ ↦ h, ?_⟩, fun h ↦ h.commit hall⟩
      rintro (hitem | ⟨e, herror⟩)
      · exact absurd hitem hnone
      · cases hr.symm.trans herror

/-- A reply that is answered at once. -/
def answered (response : Response) : Reply :=
  ⟨⟨none, .ok response, none⟩, ⟨none, .ok response, none⟩⟩

/-- The empty plan, and a commit that the core refuses. -/
theorem not_truthful_commit :
    ¬ Truthful ((applyPlan (planEffects "postgres".toList "c1".toList ⟨"t".toList, none, none⟩
      ⟨answered (.error (-32003) "could not serialize access".toList none),
        answered (.success .null), answered (.success .null)⟩) []).settle []) := by
  intro htruthful
  obtain ⟨request, result, -, hmem⟩ := htruthful.committed rfl
  cases List.mem_singleton.1 hmem

end Squaero.Front
