import Mathlib.Logic.Function.Basic
import Squaero.Core.Frame
import Squaero.Core.Slots

/-!
# The registry of running queries

`core/src/query/op_registry.c`: a table of the query that runs on each connection, which the worker
thread writes around a query and the UI thread reads to cancel one. `Shared` is what both threads
reach. The worker runs the programs of the core in the environment `Env.shared`: before each of its
driver calls, and before it writes the table, the UI thread may cancel any number of times. Every
interleaving of the atomic steps of both is such a run, for some list of the cancels that come before
each step. The `trace` lists the steps for the statements about them; no function reads it.
-/

namespace Squaero.Core

open Squaero.Lib Squaero.Lib.Ledger

/-- `op_slot` in use. -/
structure OpSlot where
  connId : ℕ
  driver : Text
  handle : Handle
  deriving DecidableEq, Repr

/-- A step of either thread. -/
inductive Moment
  /-- What a driver call of the worker did. -/
  | call (event : Event)
  /-- `conn.open` gave out the id. -/
  | opened (id : ℕ) (driver : Text) (handle : Handle)
  /-- `conn.close`, or the end of the manager, is about to release the connection. -/
  | closing (id : ℕ)
  /-- `dbcore_op_begin`. -/
  | began (id : ℕ) (driver : Text) (handle : Handle)
  /-- `dbcore_op_end`. -/
  | ended (id : ℕ)
  /-- `dbcore_op_cancel` called the cancel hook of the driver. -/
  | cancelled (id : ℕ) (driver : Text) (handle : Handle)

/-- What the worker and the UI thread share: the drivers, the table, and the ids the UI thread will
cancel before each further step of the worker. -/
structure Shared (σ : Type) where
  drivers : σ
  slots : List (Option OpSlot)
  cancels : List (List ℕ)
  trace : List Moment

/-- `OP_SLOTS`. -/
def opSlots : ℕ := 64

variable {σ : Type}

/-! ## The table -/

namespace Shared

/-- `find_slot`. -/
def findOp (s : Shared σ) (id : ℕ) : Option (ℕ × OpSlot) :=
  SlotTable.find OpSlot.connId id s.slots

def note (s : Shared σ) (moment : Moment) : Shared σ := { s with trace := moment :: s.trace }

/-- `dbcore_op_begin`: the slot of the connection again, or a free one, or none. -/
def opBegin (s : Shared σ) (id : ℕ) (driver : Text) (handle : Handle) : Shared σ :=
  let idx := match s.findOp id with
    | some (i, _) => some i
    | none => s.slots.idxOf? none
  let s := s.note (.began id driver handle)
  match idx with
  | some i => { s with slots := s.slots.set i (some ⟨id, driver, handle⟩) }
  | none => s

/-- `dbcore_op_end`. -/
def opEnd (s : Shared σ) (id : ℕ) : Shared σ :=
  let s' := s.note (.ended id)
  match s.findOp id with
  | some (i, _) => { s' with slots := s.slots.set i none }
  | none => s'

end Shared

section

variable (env : Env σ) (cancel : Text → Handle → σ → Status × σ)

/-- `dbcore_op_cancel`, with the `cancel` members of the drivers. -/
def opCancel (s : Shared σ) (id : ℕ) : Status × Shared σ :=
  match s.findOp id with
  | none => (.param, s)
  | some (_, op) =>
    if (env.findDriver op.driver).any fun drv ↦ drv.hasCancel && drv.features.cancel then
      let r := cancel op.driver op.handle s.drivers
      (r.1, { s.note (.cancelled id op.driver op.handle) with drivers := r.2 })
    else (.unsupported, s)

/-- What the UI thread does before the next step of the worker. -/
def interfere (s : Shared σ) : Shared σ :=
  match s.cancels with
  | [] => s
  | ids :: later => ids.foldl (fun s id ↦ (opCancel env cancel s id).2) { s with cancels := later }

/-- The drivers as the worker finds them. -/
def Env.shared : Env (Shared σ) where
  findDriver := env.findDriver
  answer driver _ call s :=
    let s := interfere env cancel s
    let r := env.answer driver call s.drivers
    (r.1, { s with drivers := r.2, trace := (call.events r.1).map .call ++ s.trace })
  tunnelDsn dsn s :=
    let s := interfere env cancel s
    let r := env.tunnelDsn dsn s.drivers
    (r.1, { s with drivers := r.2 })
  printNumber := env.printNumber

/-- A step of the worker on what the threads share. -/
def atomically (step : Shared σ → Shared σ) : CoreM (Shared σ) Unit := fun w ↦
  ((), { w with drivers := step (interfere env cancel w.drivers) })

/-- The query `body` on the connection `id`, announced to the UI thread while it runs. -/
def during (id : ℕ) (driver : Text) (handle : Handle) {α : Type} (body : CoreM (Shared σ) α) :
    CoreM (Shared σ) α := do
  atomically env cancel fun s ↦ s.opBegin id driver handle
  let r ← body
  atomically env cancel fun s ↦ s.opEnd id
  return r

end

/-! ## What a trace tells -/

/-- The connections there are behind a trace, latest first. -/
def conns : List Moment → ℕ → Option (Text × Handle)
  | [] => fun _ ↦ none
  | .opened id driver handle :: past => Function.update (conns past) id (some (driver, handle))
  | .closing id :: past => Function.update (conns past) id none
  | _ :: past => conns past

/-- The queries between their begin and their end. -/
def running : List Moment → ℕ → Option (Text × Handle)
  | [] => fun _ ↦ none
  | .began id driver handle :: past => Function.update (running past) id (some (driver, handle))
  | .ended id :: past => Function.update (running past) id none
  | _ :: past => running past

/-- The driver calls of a trace. -/
def calls (trace : List Moment) : List Event :=
  trace.filterMap fun moment ↦ match moment with
    | .call event => some event
    | _ => none

/-- A cancel of `id` may reach `handle`: it is the handle of the connection with that id, a query on
it is between its begin and its end, and it was not disconnected. -/
structure Cancellable (past : List Moment) (id : ℕ) (driver : Text) (handle : Handle) : Prop where
  conn : conns past id = some (driver, handle)
  running : running past id = some (driver, handle)
  isOpen : Open (calls past) handle

/-- Each call of a cancel hook was allowed when it was made. -/
def SoundTrace (trace : List Moment) : Prop :=
  ∀ after before id driver handle, trace = after ++ .cancelled id driver handle :: before →
    Cancellable before id driver handle

/-! ## What a cancel leaves alone -/

theorem SoundTrace.cons {past : List Moment} {moment : Moment} (h : SoundTrace past)
    (hmoment : ∀ id driver handle, moment = .cancelled id driver handle →
      Cancellable past id driver handle) : SoundTrace (moment :: past) := by
  intro after before id driver handle hsplit
  cases after with
  | nil =>
    obtain ⟨hmoment', hpast⟩ := List.cons.inj hsplit
    exact hpast ▸ hmoment id driver handle hmoment'
  | cons first after => exact h after before id driver handle (List.cons.inj hsplit).2

theorem SoundTrace.calls {past : List Moment} (h : SoundTrace past) (events : List Event) :
    SoundTrace (events.map .call ++ past) := by
  induction events with
  | nil => exact h
  | cons event events ih => exact ih.cons (by simp)

/-- Every query in the table may be cancelled, and every cancel so far was allowed. -/
structure Guarded (s : Shared σ) : Prop where
  sound : SoundTrace s.trace
  slots : ∀ op ∈ s.slots.reduceOption, Cancellable s.trace op.connId op.driver op.handle

/-- The threads share the same table and the same past of the worker. -/
structure SameWork (s s' : Shared σ) : Prop where
  slots : s'.slots = s.slots
  calls : calls s'.trace = calls s.trace
  conns : conns s'.trace = conns s.trace
  running : running s'.trace = running s.trace

theorem SameWork.refl (s : Shared σ) : SameWork s s := ⟨rfl, rfl, rfl, rfl⟩

theorem SameWork.trans {s s' s'' : Shared σ} (h : SameWork s s') (h' : SameWork s' s'') :
    SameWork s s'' :=
  ⟨h'.slots.trans h.slots, h'.calls.trans h.calls, h'.conns.trans h.conns,
    h'.running.trans h.running⟩

section

variable (env : Env σ) (cancel : Text → Handle → σ → Status × σ) {s : Shared σ}

theorem opCancel_guarded (hs : Guarded s) (id : ℕ) :
    Guarded (opCancel env cancel s id).2 ∧ SameWork s (opCancel env cancel s id).2 := by
  rw [opCancel]
  cases hfind : s.findOp id with
  | none => exact ⟨hs, .refl s⟩
  | some found =>
    obtain ⟨i, op⟩ := found
    obtain ⟨hslot, rfl⟩ := SlotTable.find_eq_some hfind
    have hop := hs.slots op (List.reduceOption_mem_iff.2 (List.mem_of_getElem? hslot))
    simp only []
    split_ifs
    · refine ⟨⟨hs.sound.cons ?_, fun other hother ↦ ?_⟩, rfl, rfl, rfl, rfl⟩
      · rintro id driver handle ⟨⟩
        exact hop
      · obtain ⟨hconn, hrunning, hopen⟩ := hs.slots other hother
        exact ⟨hconn, hrunning, hopen⟩
    · exact ⟨hs, .refl s⟩

theorem interfere_guarded (hs : Guarded s) :
    Guarded (interfere env cancel s) ∧ SameWork s (interfere env cancel s) := by
  rw [interfere]
  cases s.cancels with
  | nil => exact ⟨hs, .refl s⟩
  | cons ids later =>
    have hfold : ∀ s' : Shared σ, Guarded s' → SameWork s s' →
        let s'' := ids.foldl (fun s id ↦ (opCancel env cancel s id).2) s'
        Guarded s'' ∧ SameWork s s'' := by
      induction ids with
      | nil => exact fun s' hs' hsame ↦ ⟨hs', hsame⟩
      | cons id ids ih =>
        intro s' hs' hsame
        obtain ⟨hguarded, hcancel⟩ := opCancel_guarded env cancel hs' id
        exact ih _ hguarded (hsame.trans hcancel)
    exact hfold _ ⟨hs.sound, hs.slots⟩ ⟨rfl, rfl, rfl, rfl⟩

end

/-! ## The worker -/

/-- The trace tells of the connections `c`, the table holds the queries `ops`, and whoever is in it
may be cancelled. -/
structure Watched (c : ℕ → Option (Text × Handle)) (ops : List OpSlot) (w : World (Shared σ)) :
    Prop where
  calls : calls w.drivers.trace = w.history
  guarded : Guarded w.drivers
  conns : conns w.drivers.trace = c
  slots : w.drivers.slots.reduceOption = ops

section

variable {env : Env σ} {cancel : Text → Handle → σ → Status × σ}
  {c : ℕ → Option (Text × Handle)} {ops : List OpSlot} {driver : Text} {handle : Handle} {id : ℕ}

theorem calls_append (events : List Event) (trace : List Moment) :
    calls (events.map .call ++ trace) = events ++ calls trace := by
  induction events with
  | nil => rfl
  | cons event events ih =>
    rw [List.map_cons, List.cons_append, List.cons_append, ← ih]
    rfl

theorem conns_calls (events : List Event) (trace : List Moment) :
    conns (events.map .call ++ trace) = conns trace := by
  induction events with
  | nil => rfl
  | cons event events ih => exact ih

theorem running_calls (events : List Event) (trace : List Moment) :
    running (events.map .call ++ trace) = running trace := by
  induction events with
  | nil => rfl
  | cons event events ih => exact ih

theorem not_dispose_of_closes {α : Type} {call : Call α} (h : call.closes = none) (a : α)
    (handle : Handle) : .dispose handle ∉ call.events a := by
  cases call with
  | disconnect handle => cases h
  | connect dsn handle =>
    obtain ⟨st, given⟩ := a
    cases given <;> simp [Call.events]
  | query handle sql result =>
    obtain ⟨st, given⟩ := a
    cases given <;> simp [Call.events]
  | _ => simp [Call.events]

/-- A driver call of the worker, behind what the UI thread did. -/
theorem perform_watched {α : Type} {call : Call α} (h : ops = [] ∨ call.closes = none) :
    Triple (Watched c ops) (perform (env.shared cancel) driver call) fun _ ↦ Watched c ops := by
  refine ⟨fun w hw ↦ ?_⟩
  obtain ⟨hguarded, hsame⟩ := interfere_guarded env cancel hw.guarded
  let s := interfere env cancel w.drivers
  let events := call.events (env.answer driver call s.drivers).1
  have hslots : s.slots.reduceOption = ops := by rw [hsame.slots, hw.slots]
  have hcancellable : ∀ op ∈ s.slots.reduceOption,
      Cancellable (events.map .call ++ s.trace) op.connId op.driver op.handle := by
    intro op hop
    have hcloses : call.closes = none := by
      refine h.resolve_left ?_
      rintro rfl
      rw [hslots] at hop
      cases hop
    obtain ⟨hconn, hrunning, hopen⟩ := hguarded.slots op hop
    refine ⟨?_, ?_, ?_⟩
    · rw [conns_calls, hconn]
    · rw [running_calls, hrunning]
    · rw [calls_append]
      refine ⟨List.mem_append_right _ hopen.1, fun hmem ↦ ?_⟩
      rcases List.mem_append.1 hmem with hmem | hmem
      · exact not_dispose_of_closes hcloses _ _ hmem
      · exact hopen.2 hmem
  refine ⟨?_, ⟨hguarded.sound.calls events, hcancellable⟩, ?_, hslots⟩
  · exact (calls_append _ _).trans (by rw [hsame.calls, hw.calls]; rfl)
  · exact (conns_calls _ _).trans (hsame.conns.trans hw.conns)

theorem offer_watched : Triple (Watched c ops) (offer : CoreM (Shared σ) ℕ) fun _ ↦ Watched c ops :=
  ⟨fun _ hw ↦ ⟨hw.calls, hw.guarded, hw.conns, hw.slots⟩⟩

theorem watched_keptByQueries : KeptByQueries (env.shared cancel) driver (Watched c ops) where
  perform _ hcloses := perform_watched (.inr hcloses)
  offer := offer_watched

/-- While no query runs, nothing the worker does concerns the UI thread. -/
theorem watched_keptByAll : KeptByAll (env.shared cancel) (Watched c []) where
  perform _ _ := perform_watched (.inl rfl)
  tunnel dsn := by
    refine ⟨fun w hw ↦ ?_⟩
    obtain ⟨hguarded, hsame⟩ := interfere_guarded env cancel hw.guarded
    exact ⟨hsame.calls.trans hw.calls, ⟨hguarded.sound, hguarded.slots⟩, hsame.conns.trans hw.conns,
      by rw [← hw.slots, ← hsame.slots]; rfl⟩
  offer := offer_watched
  manager _ := ⟨fun _ hw ↦ ⟨hw.calls, hw.guarded, hw.conns, hw.slots⟩⟩

/-- A query enters the table, unless the table is full. -/
theorem opBegin_watched (hconn : c id = some (driver, handle)) :
    Triple (fun w ↦ Open w.history handle ∧ Watched c [] w)
      (atomically env cancel fun s ↦ s.opBegin id driver handle)
      fun _ w ↦ ∃ ops, (ops = [] ∨ ops = [⟨id, driver, handle⟩]) ∧ Watched c ops w := by
  refine ⟨fun w hw ↦ ?_⟩
  obtain ⟨hopen, hw⟩ := hw
  obtain ⟨hguarded, hsame⟩ := interfere_guarded env cancel hw.guarded
  let s := interfere env cancel w.drivers
  have hempty : s.slots.reduceOption = [] := by rw [hsame.slots, hw.slots]
  have hcalls : calls s.trace = w.history := hsame.calls.trans hw.calls
  have hconns : conns s.trace = c := hsame.conns.trans hw.conns
  have hsound : SoundTrace (.began id driver handle :: s.trace) := hguarded.sound.cons (by simp)
  have hcancellable : Cancellable (.began id driver handle :: s.trace) id driver handle :=
    ⟨(congrFun hconns id).trans hconn, Function.update_self .., hcalls.symm ▸ hopen⟩
  have hfind : s.findOp id = none := by
    cases hfind : s.findOp id with
    | none => rfl
    | some found =>
      have hmem := List.mem_of_getElem? (SlotTable.find_eq_some hfind).1
      rw [← List.reduceOption_mem_iff, hempty] at hmem
      cases hmem
  change ∃ ops, _ ∧ Watched c ops { w with drivers := s.opBegin id driver handle }
  rw [Shared.opBegin, hfind]
  cases hfree : s.slots.idxOf? none with
  | none => exact ⟨[], .inl rfl, hcalls, ⟨hsound, by simp [Shared.note, hempty]⟩, hconns, hempty⟩
  | some i =>
    obtain ⟨others, hentries, hset⟩ :=
      SlotTable.reduceOption_set (SlotTable.free_of_idxOf? hfree)
    have hothers : others = [] := by
      rw [hempty] at hentries
      exact hentries.nil_eq.symm
    have hslots : (s.slots.set i (some ⟨id, driver, handle⟩)).reduceOption =
        [⟨id, driver, handle⟩] := by
      have hperm := hset (some ⟨id, driver, handle⟩)
      rw [hothers, List.append_nil] at hperm
      exact List.perm_singleton.1 hperm
    refine ⟨_, .inr rfl, hcalls, ⟨hsound, fun op hop ↦ ?_⟩, hconns, hslots⟩
    have hmem : op ∈ (s.slots.set i (some ⟨id, driver, handle⟩)).reduceOption := hop
    rw [hslots, List.mem_singleton] at hmem
    subst hmem
    exact hcancellable

/-- A query that returns leaves the table as it was. -/
theorem opEnd_watched :
    Triple (fun w ↦ ∃ ops, (ops = [] ∨ ops = [⟨id, driver, handle⟩]) ∧ Watched c ops w)
      (atomically env cancel fun s ↦ s.opEnd id) fun _ ↦ Watched c [] := by
  refine ⟨fun w hw ↦ ?_⟩
  obtain ⟨ops, hops, hw⟩ := hw
  obtain ⟨hguarded, hsame⟩ := interfere_guarded env cancel hw.guarded
  let s := interfere env cancel w.drivers
  have hentries : s.slots.reduceOption = ops := by rw [hsame.slots, hw.slots]
  have hcalls : calls s.trace = w.history := hsame.calls.trans hw.calls
  have hconns : conns s.trace = c := hsame.conns.trans hw.conns
  have hsound : SoundTrace (.ended id :: s.trace) := hguarded.sound.cons (by simp)
  change Watched c [] { w with drivers := s.opEnd id }
  rw [Shared.opEnd]
  cases hfind : s.findOp id with
  | none =>
    have hempty : s.slots.reduceOption = [] := by
      rcases hops with rfl | rfl
      · exact hentries
      · have hmem : (⟨id, driver, handle⟩ : OpSlot) ∈ s.slots.reduceOption := by simp [hentries]
        obtain ⟨r, hr⟩ : ∃ r, s.findOp id = some r := SlotTable.exists_find hmem
        rw [hr] at hfind
        cases hfind
    exact ⟨hcalls, ⟨hsound, by simp [Shared.note, hempty]⟩, hconns, hempty⟩
  | some found =>
    obtain ⟨i, op⟩ := found
    obtain ⟨others, hperm, hset⟩ :=
      SlotTable.reduceOption_set (SlotTable.find_eq_some hfind).1
    have hothers : others = [] := by
      have hlength := hperm.length_eq
      rw [hentries, Option.toList_some, List.length_append, List.length_singleton] at hlength
      have hone : ops.length ≤ 1 := by
        rcases hops with rfl | rfl
        · exact Nat.zero_le _
        · exact le_rfl
      exact List.length_eq_zero_iff.1 (by omega)
    have hempty : (s.slots.set i none).reduceOption = [] := by
      have hnone := hset none
      rw [hothers] at hnone
      exact hnone.eq_nil
    exact ⟨hcalls, ⟨hsound, by simp [hempty]⟩, hconns, hempty⟩

/-- A query on a connection: what its program does, watched by the UI thread. -/
theorem during_spec {α : Type} {body : CoreM (Shared σ) α} {P : World (Shared σ) → Prop}
    {Q : α → World (Shared σ) → Prop} (hconn : c id = some (driver, handle))
    (hP : ∀ w drivers, P w → P { w with drivers := drivers })
    (hQ : ∀ a w drivers, Q a w → Q a { w with drivers := drivers })
    (hopen : ∀ w, P w → Open w.history handle) (hbody : Triple P body Q)
    (hframe : ∀ ops, Triple (Watched c ops) body fun _ ↦ Watched c ops) :
    Triple (fun w ↦ P w ∧ Watched c [] w) (during env cancel id driver handle body)
      fun a w ↦ Q a w ∧ Watched c [] w := by
  apply Triple.bind (Q := fun _ w ↦ P w ∧
    ∃ ops, (ops = [] ∨ ops = [⟨id, driver, handle⟩]) ∧ Watched c ops w)
  · exact ⟨fun w hw ↦ ⟨hP _ _ hw.1, (opBegin_watched hconn).run w ⟨hopen w hw.1, hw.2⟩⟩⟩
  intro _
  apply Triple.bind (Q := fun a w ↦ Q a w ∧
    ∃ ops, (ops = [] ∨ ops = [⟨id, driver, handle⟩]) ∧ Watched c ops w)
  · refine ⟨fun w hw ↦ ⟨hbody.run w hw.1, ?_⟩⟩
    obtain ⟨ops, hops, hwatched⟩ := hw.2
    exact ⟨ops, hops, (hframe ops).run w hwatched⟩
  intro a
  apply Triple.thenReturn
  exact ⟨fun w hw ↦ ⟨hQ a _ _ hw.1, opEnd_watched.run w hw.2⟩⟩

end

end Squaero.Core
