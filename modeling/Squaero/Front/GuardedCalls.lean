import Mathlib.Data.List.Count
import Mathlib.Logic.Function.Basic
import Squaero.Front.Transport

/-!
# Safe mode under any interleaving

`call`, `withWriteConsent`, `withConfirmedWrites` and `setConnGuard` of
`frontend/src/utils/transport.ts`, switching where they await. An invocation is a process that waits
for something; an action starts one, or gives one that waits its reply. What `fn` does in a scope are
other actions, so any nesting is among the runs. The `history` is for the statements; nothing reads it.
-/

namespace Squaero.Front

open Squaero.Lib Squaero.Gate

/-- Where an invocation waits. -/
inductive Proc
  /-- `call` behind `safeModeBlock`, which refused the request or did not. -/
  | checked (request : Request) (retried isRefused : Bool)
  /-- `call` in `ui.confirm`. -/
  | asking (request : Request) (retried : Bool)
  /-- `call` in the bridge. -/
  | sent (request : Request) (retried : Bool)
  /-- `call` in the listener, with the response that says the connection is lost. -/
  | lost (request : Request) (retried : Bool) (res : Response)
  /-- `withWriteConsent` in `ui.confirm`. -/
  | askingScope (connId : Text)
  /-- `withConfirmedWrites` in `fn`. -/
  | scope (connId : Text)
  /-- `withWriteConsent` in `fn`, which it asked nobody about. -/
  | running
  | done

inductive Event
  /-- A call looked at the guard of its connection, which had this many open scopes. -/
  | checked (call : ℕ) (request : Request) (guard : Option SafeModeGuard) (scopes : ℕ)
  | confirmed (call : ℕ) (answer : Bool)
  /-- The request went to the bridge. -/
  | passed (call : ℕ) (request : Request)

/-- The module's state, its invocations in the order they started, and what happened. -/
structure App where
  guards : Text → Option SafeModeGuard
  ui : Bool
  consent : Text → Option ℕ
  procs : List Proc
  history : List Event

/-- What an invocation that waits may get. -/
inductive Wakeup
  | turn
  /-- How `ui.confirm` settles; none where it rejects. -/
  | confirm (answer : Option Bool)
  | answer (answer : Except Text Response)
  /-- How the listener settles; none where it rejects. -/
  | outcome (lost : Option (Option LostOutcome))
  /-- `fn` resolves or throws. -/
  | settles

inductive Action
  | setConnGuard (connId : Text) (guard : Option SafeModeGuard)
  | setSafeModeUi (ui : Bool)
  | call (request : Request)
  | withWriteConsent (connId : Text) (stmts : List Text)
  | withConfirmedWrites (connId : Text)
  | wake (i : ℕ) (wakeup : Wakeup)

def Proc.isScopeOf (connId : Text) : Proc → Bool
  | .scope id => id = connId
  | _ => false

namespace App

variable (app : App)

/-- The `withConfirmedWrites` scopes of a connection that have not settled. -/
def openScopes (connId : Text) : ℕ := app.procs.countP (Proc.isScopeOf connId)

/-- `(consent.get(connId) ?? 0) > 0`. -/
def hasConsent (connId : Text) : Bool := 0 < (app.consent connId).getD 0

/-- The invocation `i` goes on to wait in `p`. -/
def move (i : ℕ) (p : Proc) (event : Option Event) : App :=
  { app with procs := app.procs.set i p, history := app.history ++ event.toList }

/-- `safeModeBlock`, up to where it waits. -/
def safeModeBlock (request : Request) (retried : Bool) : Proc :=
  match request.connId with
  | none => .checked request retried false
  | some connId =>
    match app.guards connId with
    | none => .checked request retried false
    | some guard =>
      if (requestWrites request guard.engine).isNone then .checked request retried false
      else if guard.mode = .readOnly then .checked request retried true
      else if app.hasConsent connId then .checked request retried false
      else if app.ui then .asking request retried
      else .checked request retried true

/-- `call` from its start. -/
def startCall (i : ℕ) (request : Request) (retried : Bool) : App :=
  app.move i (app.safeModeBlock request retried)
    (some (.checked i request (request.connId.bind app.guards) (request.connId.elim 0 app.openScopes)))

/-- `withConfirmedWrites` up to `fn`. -/
def openScope (i : ℕ) (connId : Text) : App :=
  { app.move i (.scope connId) none with
    consent := Function.update app.consent connId (some ((app.consent connId).getD 0 + 1)) }

/-- The `finally` of `withConfirmedWrites`. -/
def closeScope (i : ℕ) (connId : Text) : App :=
  let left := (app.consent connId).getD 1 - 1
  { app.move i .done none with
    consent := Function.update app.consent connId (if 0 < left then some left else none) }

def startConsent (i : ℕ) (connId : Text) (stmts : List Text) : App :=
  match app.guards connId with
  | none => app.move i .running none
  | some guard =>
    let writes := stmts.filter fun stmt ↦ SafeMode.classifySql stmt (some guard.engine) = .write
    if writes = [] ∨ app.hasConsent connId then app.move i .running none
    else if guard.mode = .readOnly ∨ !app.ui then app.move i .done none
    else app.move i (.askingScope connId) none

/-- The invocation `i` gets what it waits for; any other wakeup does nothing. -/
def resume (i : ℕ) : Proc → Wakeup → App
  | .checked request retried false, .turn =>
    app.move i (.sent request retried) (some (.passed i request))
  | .checked _ _ true, .turn => app.move i .done none
  | .asking request retried, .confirm answer =>
    app.move i (answer.elim .done fun answer ↦ .checked request retried !answer)
      (some (.confirmed i (answer.getD false)))
  | .sent request retried, .answer (.ok res) =>
    if request.connId.isSome ∧ saysConnectionLost request.method res then
      app.move i (.lost request retried res) none
    else app.move i .done none
  | .sent _ _, .answer (.error _) => app.move i .done none
  | .lost request retried res, .outcome (some lost) =>
    match afterAnswer request retried lost res with
    | .inl _ => app.move i .done none
    | .inr session => app.startCall i (request.withConnId session) true
  | .lost _ _ _, .outcome none => app.move i .done none
  | .askingScope connId, .confirm (some true) => app.openScope i connId
  | .askingScope _, .confirm _ => app.move i .done none
  | .scope connId, .settles => app.closeScope i connId
  | .running, .settles => app.move i .done none
  | _, _ => app

/-- A new invocation, and its number. -/
def spawn : App := { app with procs := app.procs ++ [.done] }

def step : Action → App
  | .setConnGuard connId guard => { app with guards := Function.update app.guards connId guard }
  | .setSafeModeUi ui => { app with ui := ui }
  | .call request => app.spawn.startCall app.procs.length request false
  | .withWriteConsent connId stmts => app.spawn.startConsent app.procs.length connId stmts
  | .withConfirmedWrites connId => app.spawn.openScope app.procs.length connId
  | .wake i wakeup => (app.procs[i]?).elim app fun p ↦ app.resume i p wakeup

/-- Before the first invocation. -/
def initial : App := ⟨fun _ ↦ none, false, fun _ ↦ none, [], []⟩

def run (actions : List Action) : App := actions.foldl step initial

end App

/-! ## What the history says of a call -/

/-- The last look of a call at its guard, and whether it was confirmed since. -/
structure Check where
  request : Request
  guard : Option SafeModeGuard
  scopes : ℕ
  isConfirmed : Bool

def noteEvent (i : ℕ) (check : Option Check) : Event → Option Check
  | .checked j request guard scopes =>
    if j = i then some ⟨request, guard, scopes, false⟩ else check
  | .confirmed j answer =>
    if j = i then check.map fun check ↦ { check with isConfirmed := check.isConfirmed || answer }
    else check
  | .passed _ _ => check

def checkOf (i : ℕ) (history : List Event) : Option Check := history.foldl (noteEvent i) none

/-- The guard lets the request pass: it finds no write in it, or it asks, and the user confirmed this
call or had confirmed an action that was under way. -/
def Check.Permits (check : Check) : Prop :=
  ∀ guard ∈ check.guard, (requestWrites check.request guard.engine).isSome →
    guard.mode = .confirm ∧ (check.isConfirmed = true ∨ 0 < check.scopes)

def Permitted (i : ℕ) (request : Request) (history : List Event) : Prop :=
  ∃ check, checkOf i history = some check ∧ check.request = request ∧ check.Permits

/-- What a process that waits owes to its check. -/
def Proc.Backed (i : ℕ) (history : List Event) : Proc → Prop
  | .checked request _ false => Permitted i request history
  | .asking request _ => ∃ check, checkOf i history = some check ∧ check.request = request ∧
      ∀ guard ∈ check.guard, guard.mode = .confirm
  | _ => True

/-- No request passes a guard that did not permit it, and a connection has as much consent as it has
open scopes. -/
structure Guarded (app : App) : Prop where
  passed : ∀ before i request after, app.history = before ++ .passed i request :: after →
    Permitted i request before
  consent : ∀ connId, app.consent connId =
    if app.openScopes connId = 0 then none else some (app.openScopes connId)

structure Sound (app : App) : Prop extends Guarded app where
  backed : ∀ (i : ℕ) (p : Proc), app.procs[i]? = some p → p.Backed i app.history

section Moves

variable {app : App} {i : ℕ} {p p' : Proc} {event : Event} {connId : Text} {history : List Event}

@[simp]
theorem checkOf_concat : checkOf i (history ++ [event]) = noteEvent i (checkOf i history) event := by
  rw [checkOf, List.foldl_append]
  rfl

/-- The call an event is about. -/
def Event.call : Event → ℕ
  | .checked i _ _ _ => i
  | .confirmed i _ => i
  | .passed i _ => i

theorem noteEvent_other {check : Option Check} (h : event.call ≠ i) :
    noteEvent i check event = check := by
  cases event with
  | passed => rfl
  | _ => exact if_neg h

/-- What one call does says nothing of another. -/
theorem Proc.Backed.concat (h : p.Backed i history) (hevent : event.call ≠ i) :
    p.Backed i (history ++ [event]) := by
  cases p with
  | checked request retried isRefused =>
    cases isRefused with
    | false =>
      obtain ⟨check, hcheck, hpermits⟩ := h
      exact ⟨check, by rwa [checkOf_concat, noteEvent_other hevent], hpermits⟩
    | true => trivial
  | asking request retried =>
    obtain ⟨check, hcheck, hasks⟩ := h
    exact ⟨check, by rwa [checkOf_concat, noteEvent_other hevent], hasks⟩
  | _ => trivial

theorem passed_concat
    (h : ∀ before i request after, history = before ++ .passed i request :: after →
      Permitted i request before)
    (hevent : ∀ i request, event = .passed i request → Permitted i request history) :
    ∀ before i request after, history ++ [event] = before ++ .passed i request :: after →
      Permitted i request before := by
  intro before i request after hsplit
  rcases after.eq_nil_or_concat with rfl | ⟨init, last, rfl⟩
  · obtain ⟨rfl, hlast⟩ := List.append_inj' hsplit rfl
    cases hlast
    exact hevent i request rfl
  · rw [List.concat_eq_append, ← List.cons_append, ← List.append_assoc] at hsplit
    exact h before i request init (List.append_inj' hsplit rfl).1

theorem openScopes_set (hi : app.procs[i]? = some p) :
    (app.procs.set i p').countP (Proc.isScopeOf connId) =
      app.openScopes connId - (if p.isScopeOf connId then 1 else 0) +
        if p'.isScopeOf connId then 1 else 0 := by
  obtain ⟨hlt, rfl⟩ := List.getElem?_eq_some_iff.1 hi
  exact List.countP_set hlt

/-- The processes of `app`, of which `i` goes on to `p'`. -/
theorem backed_set (h : ∀ (j : ℕ) (p : Proc), app.procs[j]? = some p → j ≠ i → p.Backed j history)
    (hback : p'.Backed i history) :
    ∀ (j : ℕ) (p : Proc), (app.procs.set i p')[j]? = some p → p.Backed j history := by
  intro j p hj
  by_cases hij : j = i
  · subst hij
    obtain ⟨hlt, hget⟩ := List.getElem?_eq_some_iff.1 hj
    rw [List.getElem_set_self] at hget
    rw [← hget]
    exact hback
  · rw [List.getElem?_set_ne (Ne.symm hij)] at hj
    exact h j p hj hij

/-- A process that is no scope goes on to wait for something else. -/
theorem Sound.move (h : Sound app) (hi : app.procs[i]? = some p)
    (hp : ∀ connId, p.isScopeOf connId = false) (hp' : ∀ connId, p'.isScopeOf connId = false)
    (hback : p'.Backed i app.history) : Sound (app.move i p' none) where
  passed := by simpa [App.move] using h.passed
  consent connId := by
    have hcount : (app.move i p' none).openScopes connId = app.openScopes connId := by
      rw [App.openScopes, App.move, openScopes_set hi, hp, hp']
      exact Nat.add_zero _
    rw [hcount]
    exact h.consent connId
  backed := by
    rw [App.move, Option.toList_none, List.append_nil]
    exact backed_set (fun j p hj _ ↦ h.backed j p hj) hback

/-- The same, with something that happened to this call. -/
theorem Sound.moveWith (h : Sound app) (hi : app.procs[i]? = some p)
    (hp : ∀ connId, p.isScopeOf connId = false) (hp' : ∀ connId, p'.isScopeOf connId = false)
    (hcall : event.call = i)
    (hpassed : ∀ i request, event = .passed i request → Permitted i request app.history)
    (hback : p'.Backed i (app.history ++ [event])) : Sound (app.move i p' (some event)) where
  passed := passed_concat h.passed hpassed
  consent connId := by
    have hcount : (app.move i p' (some event)).openScopes connId = app.openScopes connId := by
      rw [App.openScopes, App.move, openScopes_set hi, hp, hp']
      exact Nat.add_zero _
    rw [hcount]
    exact h.consent connId
  backed := by
    refine backed_set (fun j p hj hij ↦ (h.backed j p hj).concat ?_) hback
    rw [hcall]
    exact Ne.symm hij

theorem Sound.openScope (h : Sound app) (hi : app.procs[i]? = some p)
    (hp : ∀ connId, p.isScopeOf connId = false) (connId : Text) : Sound (app.openScope i connId) where
  passed := by simpa [App.openScope, App.move] using h.passed
  consent other := by
    have hcount : (app.openScope i connId).openScopes other =
        app.openScopes other + if connId = other then 1 else 0 := by
      rw [App.openScopes, App.openScope, App.move, openScopes_set hi, hp]
      simp [Proc.isScopeOf]
    rw [hcount]
    change Function.update app.consent connId _ other = _
    by_cases hother : connId = other
    · subst hother
      rw [if_pos rfl, if_neg (Nat.succ_ne_zero _), Function.update_self, h.consent connId]
      by_cases hnone : app.openScopes connId = 0
      · rw [if_pos hnone, hnone]
        rfl
      · rw [if_neg hnone]
        rfl
    · rw [if_neg hother, Function.update_of_ne (Ne.symm hother)]
      exact h.consent other
  backed := by
    rw [App.openScope, App.move, Option.toList_none, List.append_nil]
    exact backed_set (fun j p hj _ ↦ h.backed j p hj) trivial

theorem Sound.closeScope (h : Sound app) (hi : app.procs[i]? = some (.scope connId)) :
    Sound (app.closeScope i connId) where
  passed := by simpa [App.closeScope, App.move] using h.passed
  consent other := by
    have hcount : (app.closeScope i connId).openScopes other =
        app.openScopes other - if connId = other then 1 else 0 := by
      rw [App.openScopes, App.closeScope, App.move, openScopes_set hi]
      simp [Proc.isScopeOf]
    rw [hcount]
    change Function.update app.consent connId _ other = _
    by_cases hother : connId = other
    · subst hother
      have hpos : app.openScopes connId ≠ 0 := by
        refine (List.countP_pos_iff.2 ⟨.scope connId, List.mem_of_getElem? hi, ?_⟩).ne'
        exact decide_eq_true rfl
      rw [if_pos rfl, Function.update_self, h.consent connId, if_neg hpos]
      by_cases hlast : app.openScopes connId - 1 = 0
      · simp [hlast]
      · simp [hlast, Nat.pos_of_ne_zero hlast]
    · rw [if_neg hother, Function.update_of_ne (Ne.symm hother)]
      exact h.consent other
  backed := by
    rw [App.closeScope, App.move, Option.toList_none, List.append_nil]
    exact backed_set (fun j p hj _ ↦ h.backed j p hj) trivial

/-- What `safeModeBlock` may come to. -/
theorem safeModeBlock_cases (app : App) (request : Request) (retried : Bool) :
    app.safeModeBlock request retried = .checked request retried true ∨
    (app.safeModeBlock request retried = .checked request retried false ∧
      ∀ guard ∈ request.connId.bind app.guards, (requestWrites request guard.engine).isSome →
        guard.mode = .confirm ∧ ∃ connId, request.connId = some connId ∧ app.hasConsent connId) ∨
    app.safeModeBlock request retried = .asking request retried ∧
      ∀ guard ∈ request.connId.bind app.guards, guard.mode = .confirm := by
  rw [App.safeModeBlock]
  cases request.connId with
  | none => exact .inr (.inl ⟨rfl, fun guard hguard ↦ by cases hguard⟩)
  | some connId =>
    simp only [Option.bind_some]
    cases hguard : app.guards connId with
    | none => exact .inr (.inl ⟨rfl, fun guard hguard ↦ by cases hguard⟩)
    | some guard =>
      simp only [Option.mem_some_iff, forall_eq']
      by_cases hreads : (requestWrites request guard.engine).isNone
      · rw [if_pos hreads]
        refine .inr (.inl ⟨rfl, fun hwrites ↦ ?_⟩)
        rw [← Option.not_isNone, hreads] at hwrites
        cases hwrites
      rw [if_neg hreads]
      by_cases hreadOnly : guard.mode = .readOnly
      · rw [if_pos hreadOnly]
        exact .inl rfl
      have hmode : guard.mode = .confirm := by
        cases hmode : guard.mode with
        | readOnly => exact absurd hmode hreadOnly
        | confirm => rfl
      rw [if_neg hreadOnly]
      by_cases hconsent : app.hasConsent connId
      · rw [if_pos hconsent]
        exact .inr (.inl ⟨rfl, fun _ ↦ ⟨hmode, connId, rfl, hconsent⟩⟩)
      rw [if_neg hconsent]
      by_cases hui : app.ui
      · rw [if_pos hui]
        exact .inr (.inr ⟨rfl, hmode⟩)
      · rw [if_neg hui]
        exact .inl rfl

theorem openScopes_pos (h : Guarded app) (hconsent : app.hasConsent connId) :
    0 < app.openScopes connId := by
  by_contra hnone
  have hzero : app.openScopes connId = 0 := by omega
  rw [App.hasConsent, h.consent connId, if_pos hzero] at hconsent
  simp at hconsent

/-- `call` looks at its guard, and waits accordingly. -/
theorem Sound.startCall (h : Sound app) (hi : app.procs[i]? = some p)
    (hp : ∀ connId, p.isScopeOf connId = false) (request : Request) (retried : Bool) :
    Sound (app.startCall i request retried) := by
  have hcheck : checkOf i (app.history ++ [.checked i request (request.connId.bind app.guards)
      (request.connId.elim 0 app.openScopes)]) =
        some ⟨request, request.connId.bind app.guards, request.connId.elim 0 app.openScopes, false⟩ := by
    rw [checkOf_concat]
    exact if_pos rfl
  have hpassed : ∀ j other, Event.checked i request (request.connId.bind app.guards)
      (request.connId.elim 0 app.openScopes) = .passed j other → Permitted j other app.history :=
    fun j other h ↦ by cases h
  rw [App.startCall]
  rcases safeModeBlock_cases app request retried with hproc | ⟨hproc, hmay⟩ | ⟨hproc, hasks⟩ <;>
    rw [hproc]
  · exact h.moveWith hi hp (fun _ ↦ rfl) rfl hpassed trivial
  · refine h.moveWith hi hp (fun _ ↦ rfl) rfl hpassed ⟨_, hcheck, rfl, fun guard hguard hwrites ↦ ?_⟩
    obtain ⟨hmode, connId, hid, hconsent⟩ := hmay guard hguard hwrites
    refine ⟨hmode, .inr ?_⟩
    change 0 < request.connId.elim 0 app.openScopes
    rw [hid]
    exact openScopes_pos h.toGuarded hconsent
  · exact h.moveWith hi hp (fun _ ↦ rfl) rfl hpassed ⟨_, hcheck, rfl, hasks⟩

end Moves

/-! ## Runs -/

section Runs

variable {app : App}

theorem Sound.spawn (h : Sound app) : Sound app.spawn where
  passed := h.passed
  consent connId := by
    have hcount : app.spawn.openScopes connId = app.openScopes connId := by
      rw [App.openScopes, App.spawn, List.countP_append]
      rfl
    rw [hcount]
    exact h.consent connId
  backed i p hi := by
    by_cases hlt : i < app.procs.length
    · rw [App.spawn, List.getElem?_append_left hlt] at hi
      exact h.backed i p hi
    · rw [App.spawn, List.getElem?_append_right (by omega)] at hi
      rw [List.mem_singleton.1 (List.mem_of_getElem? hi)]
      trivial

theorem spawn_procs (app : App) : app.spawn.procs[app.procs.length]? = some .done :=
  List.getElem?_concat_length

/-- The user answered the question of a call. -/
theorem Sound.answer (h : Sound app) {i : ℕ} {request : Request} {retried : Bool}
    (hi : app.procs[i]? = some (.asking request retried)) (answer : Option Bool) :
    Sound (app.resume i (.asking request retried) (.confirm answer)) := by
  obtain ⟨check, hcheck, hrequest, hasks⟩ := h.backed i _ hi
  have hpassed : ∀ j other, Event.confirmed i (answer.getD false) = .passed j other →
      Permitted j other app.history := fun j other h ↦ by cases h
  rw [App.resume]
  refine h.moveWith hi (fun _ ↦ rfl) (fun connId ↦ ?_) rfl hpassed ?_
  · cases answer <;> rfl
  rcases answer with _ | _ | _
  · exact trivial
  · exact trivial
  · refine ⟨{ check with isConfirmed := check.isConfirmed || true }, ?_, hrequest,
      fun guard hguard _ ↦ ⟨hasks guard hguard, .inl (Bool.or_true _)⟩⟩
    rw [checkOf_concat, hcheck]
    exact if_pos rfl

theorem Sound.resume (h : Sound app) {i : ℕ} {p : Proc} (hi : app.procs[i]? = some p)
    (wakeup : Wakeup) : Sound (app.resume i p wakeup) := by
  have hdone (hp : ∀ connId, p.isScopeOf connId = false) : Sound (app.move i .done none) :=
    h.move hi hp (fun _ ↦ rfl) trivial
  cases p with
  | checked request retried isRefused =>
    cases wakeup with
    | turn =>
      cases isRefused with
      | true => exact hdone fun _ ↦ rfl
      | false =>
        have hback : Permitted i request app.history := h.backed i _ hi
        refine h.moveWith hi (fun _ ↦ rfl) (fun _ ↦ rfl) rfl (fun j other heq ↦ ?_) trivial
        cases heq
        exact hback
    | _ => cases isRefused <;> exact h
  | asking request retried =>
    cases wakeup with
    | confirm answer => exact h.answer hi answer
    | _ => exact h
  | sent request retried =>
    cases wakeup with
    | answer res =>
      cases res with
      | error message => exact hdone fun _ ↦ rfl
      | ok res =>
        rw [App.resume]
        split
        next => exact h.move hi (fun _ ↦ rfl) (fun _ ↦ rfl) trivial
        next => exact hdone fun _ ↦ rfl
    | _ => exact h
  | lost request retried res =>
    cases wakeup with
    | outcome lost =>
      cases lost with
      | none => exact hdone fun _ ↦ rfl
      | some lost =>
        rw [App.resume]
        split
        next => exact hdone fun _ ↦ rfl
        next session _ => exact h.startCall hi (fun _ ↦ rfl) (request.withConnId session) true
    | _ => exact h
  | askingScope connId =>
    cases wakeup with
    | confirm answer =>
      rcases answer with _ | _ | _
      · exact hdone fun _ ↦ rfl
      · exact hdone fun _ ↦ rfl
      · exact h.openScope hi (fun _ ↦ rfl) connId
    | _ => exact h
  | scope connId =>
    cases wakeup with
    | settles => exact h.closeScope hi
    | _ => exact h
  | running =>
    cases wakeup with
    | settles => exact hdone fun _ ↦ rfl
    | _ => exact h
  | done => cases wakeup <;> exact h

/-- What one action preserves. -/
theorem Sound.step (h : Sound app) (action : Action) : Sound (app.step action) := by
  cases action with
  | setConnGuard connId guard => exact ⟨⟨h.passed, h.consent⟩, h.backed⟩
  | setSafeModeUi ui => exact ⟨⟨h.passed, h.consent⟩, h.backed⟩
  | call request => exact h.spawn.startCall (spawn_procs app) (fun _ ↦ rfl) request false
  | withWriteConsent connId stmts =>
    have hmove {p : Proc} (hp : ∀ connId, p.isScopeOf connId = false)
        (hback : p.Backed app.procs.length app.spawn.history) :
        Sound (app.spawn.move app.procs.length p none) :=
      h.spawn.move (spawn_procs app) (fun _ ↦ rfl) hp hback
    change Sound (app.spawn.startConsent app.procs.length connId stmts)
    rw [App.startConsent]
    split
    next => exact hmove (fun _ ↦ rfl) trivial
    next guard hguard =>
      simp only
      split
      next => exact hmove (fun _ ↦ rfl) trivial
      next =>
        split
        next => exact hmove (fun _ ↦ rfl) trivial
        next => exact hmove (fun _ ↦ rfl) trivial
  | withConfirmedWrites connId => exact h.spawn.openScope (spawn_procs app) (fun _ ↦ rfl) connId
  | wake i wakeup =>
    change Sound ((app.procs[i]?).elim app fun p ↦ app.resume i p wakeup)
    cases hi : app.procs[i]? with
    | none => exact h
    | some p => exact h.resume hi wakeup

/-- What a run preserves: safe mode holds under any interleaving. -/
theorem run_guarded (actions : List Action) : Guarded (App.run actions) := by
  have hinitial : Sound App.initial :=
    ⟨⟨fun before i request after h ↦ by simp [App.initial] at h, fun _ ↦ rfl⟩,
      fun i p hi ↦ by simp [App.initial] at hi⟩
  have hrun : ∀ app, Sound app → Sound (actions.foldl App.step app) := by
    induction actions with
    | nil => exact fun app h ↦ h
    | cons action actions ih => exact fun app h ↦ ih _ (h.step action)
  exact (hrun _ hinitial).toGuarded

end Runs

end Squaero.Front
