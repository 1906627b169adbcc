import Squaero.Conn.Tunnel
import Squaero.Ipc.Connections
import Squaero.Lib.Owners

/-!
# Tunnels over the life of the manager

`core/src/conn/manager.c` with its tunnels, over runs in which connections are opened and closed, whatever the SSH
layer and the drivers answer and whichever allocation fails. The tunnels that are open are those of the live
connections, one for each. While no allocation fails a run does to the core what the manager without tunnels does.
-/

namespace Squaero.Conn

open Squaero.Lib Squaero.Core Squaero.Ipc

variable {σ : Type} (cjson : CJson) (env : Env σ) (layer : SshLayer σ)

/-! ## Runs -/

/-- `release_slot`: the tunnel goes after the connection that rides it. -/
def releaseSlot (i : ℕ) (s : Slot) : TunnelM σ Unit := do
  onCore (Core.releaseSlot env i s)
  let w ← get
  sshTunnelClose (w.slotTunnel s.id)
  modify fun w ↦ { w with slotTunnel := Function.update w.slotTunnel s.id none }

/-- The loop of `dbcore_conn_manager_free`. -/
def releaseAll (i : ℕ) : List (Option Slot) → TunnelM σ Unit
  | [] => pure ()
  | none :: rest => releaseAll (i + 1) rest
  | some s :: rest => do
    releaseSlot env i s
    releaseAll (i + 1) rest

/-- `dbcore_conn_manager_free`. -/
def connManagerFree : TunnelM σ Unit := do
  let mgr ← onCore getManager
  releaseAll env 0 mgr.slots
  onCore (setManager .new)

/-- After `freeing` the next operation is on a new manager. -/
inductive ManagerOp
  | opening (driver dsn : Text)
  | closing (conn : ℕ)
  | freeing

inductive ManagerAnswer
  | opened (conn : Except (Status × Text) ℕ)
  | closed (st : Status)
  | freed

def ManagerOp.run : ManagerOp → TunnelM σ ManagerAnswer
  | .opening driver dsn => .opened <$> connManagerOpen cjson env layer driver dsn
  | .closing conn => .closed <$> connManagerClose env conn
  | .freeing => (fun _ ↦ .freed) <$> connManagerFree env

def runManager : List ManagerOp → TunnelM σ (List ManagerAnswer)
  | [] => pure []
  | op :: ops => do
    let answer ← op.run cjson env layer
    let answers ← runManager ops
    return answer :: answers

/-- The same on the manager without tunnels. -/
def ManagerOp.runDirectly : ManagerOp → CoreM σ ManagerAnswer
  | .opening driver dsn => .opened <$> Core.connManagerOpen (withoutTunnels cjson env layer) driver dsn
  | .closing conn => .closed <$> Core.connManagerClose (withoutTunnels cjson env layer) conn
  | .freeing => (fun _ ↦ .freed) <$> Core.connManagerFree (withoutTunnels cjson env layer)

def runDirectly : List ManagerOp → CoreM σ (List ManagerAnswer)
  | [] => pure []
  | op :: ops => do
    let answer ← op.runDirectly cjson env layer
    let answers ← runDirectly ops
    return answer :: answers

/-! ## What the core sees -/

theorem connManagerClose_erases (conn : ℕ) :
    Erases id (connManagerClose env conn) (Core.connManagerClose (withoutTunnels cjson env layer) conn) := by
  apply Erases.bind (erases_onCore _)
  intro mgr
  rw [id]
  cases hfind : mgr.findSlot conn with
  | none => exact erases_pure rfl
  | some found =>
    apply Erases.bind (erases_onCore _)
    intro _
    refine .skip (fun _ ↦ rfl) fun w ↦ ?_
    refine .skip (fun _ ↦ rfl) fun _ ↦ ?_
    exact .skip (fun _ ↦ rfl) fun _ ↦ erases_pure rfl

theorem releaseSlot_erases (i : ℕ) (s : Slot) :
    Erases id (releaseSlot env i s) (Core.releaseSlot (withoutTunnels cjson env layer) i s) := by
  intro w
  exact ⟨rfl, rfl⟩

theorem releaseAll_erases (i : ℕ) (slots : List (Option Slot)) :
    Erases id (releaseAll env i slots) (Core.releaseAll (withoutTunnels cjson env layer) i slots) := by
  induction slots generalizing i with
  | nil => exact erases_pure rfl
  | cons x rest ih =>
    cases x with
    | none => exact ih (i + 1)
    | some s =>
      apply Erases.bind (releaseSlot_erases cjson env layer i s)
      intro _
      exact ih (i + 1)

theorem connManagerFree_erases :
    Erases id (connManagerFree env) (Core.connManagerFree (withoutTunnels cjson env layer)) := by
  apply Erases.bind (erases_onCore _)
  intro mgr
  apply Erases.bind (releaseAll_erases cjson env layer 0 mgr.slots)
  intro _
  exact erases_onCore _

theorem Erases.map {α β : Type} {m : TunnelM σ α} {m' : CoreM σ α} (hm : Erases id m m') (f : α → β) :
    Erases id (f <$> m) (f <$> m') := by
  intro w
  obtain ⟨hvalue, hcore⟩ := hm w
  exact ⟨congrArg f hvalue, hcore⟩

theorem ManagerOp.run_erases (hfails : ∀ a s, layer.fails a s = false) (op : ManagerOp) :
    Erases id (op.run cjson env layer) (op.runDirectly cjson env layer) := by
  cases op with
  | opening driver dsn =>
    exact (connManagerOpen_erases cjson env layer hfails driver dsn).map _
  | closing conn => exact (connManagerClose_erases cjson env layer conn).map _
  | freeing => exact (connManagerFree_erases cjson env layer).map _

theorem runManager_erases (hfails : ∀ a s, layer.fails a s = false) (ops : List ManagerOp) :
    Erases id (runManager cjson env layer ops) (runDirectly cjson env layer ops) := by
  induction ops with
  | nil => exact erases_pure rfl
  | cons op ops ih =>
    apply Erases.bind (ManagerOp.run_erases cjson env layer hfails op)
    intro answer
    apply Erases.bind ih
    intro answers
    exact erases_pure rfl

variable {cjson env layer}

/-- The tunnels and the slots at one moment, and which ids of tunnels were not given out before it. -/
structure Moment (ts : List Tunnel) (mgr : Manager) (slots : ℕ → Option Tunnel) (fresh : ℕ)
    (w : TunnelWorld σ) : Prop where
  tunnels : w.tunnels = ts
  manager : w.core.manager = mgr
  slots : w.slotTunnel = slots
  fresh : fresh ≤ w.fresh

/-- What holds behind a step that failed, and behind one that did not. -/
def Either {ε α : Type} (failed : TunnelWorld σ → Prop) (succeeded : α → TunnelWorld σ → Prop) (r : Except ε α)
    (w : TunnelWorld σ) : Prop :=
  (∀ failure, r = .error failure → failed w) ∧ ∀ a, r = .ok a → succeeded a w

theorem either_error {ε α : Type} {failed : TunnelWorld σ → Prop} {succeeded : α → TunnelWorld σ → Prop}
    {failure : ε} {w : TunnelWorld σ} (h : failed w) : Either failed succeeded (.error failure) w :=
  ⟨fun _ _ ↦ h, fun _ heq ↦ by cases heq⟩

theorem either_ok {ε α : Type} {failed : TunnelWorld σ → Prop} {succeeded : α → TunnelWorld σ → Prop}
    {a : α} {w : TunnelWorld σ} (h : succeeded a w) : Either failed succeeded (.ok a : Except ε α) w := by
  refine ⟨fun _ heq ↦ (by cases heq), fun a' heq ↦ ?_⟩
  cases heq
  exact h

/-- The first id behind that of a tunnel. -/
def past (fresh : ℕ) (tunnel : Option Tunnel) : ℕ := tunnel.elim fresh (·.id + 1)

section Opening

variable {ts : List Tunnel} {mgr : Manager} {slots : ℕ → Option Tunnel} {fresh : ℕ} {driver dsn : Text}
  {tunnel : Option Tunnel}

theorem onCore_moment {α : Type} {m : CoreM σ α}
    (hm : Triple (fun w ↦ w.manager = mgr) m fun _ w ↦ w.manager = mgr) :
    Triple (Moment ts mgr slots fresh) (onCore m) fun _ ↦ Moment ts mgr slots fresh :=
  ⟨fun w hw ↦ ⟨hw.tunnels, hm.run w.core hw.manager, hw.slots, hw.fresh⟩⟩

theorem getManager_moment : Triple (Moment ts mgr slots fresh) (onCore getManager : TunnelM σ Manager)
    fun m w ↦ m = mgr ∧ Moment ts mgr slots fresh w :=
  ⟨fun _ hw ↦ ⟨hw.manager, hw⟩⟩

theorem perform_moment {α : Type} {call : Call α} :
    Triple (Moment ts mgr slots fresh) (onCore (perform env driver call)) fun _ ↦ Moment ts mgr slots fresh :=
  onCore_moment perform_manager

theorem sshTunnelClose_erase : Triple (Moment ts mgr slots fresh) (sshTunnelClose tunnel : TunnelM σ Unit)
    fun _ ↦ Moment (tunnel.elim ts ts.erase) mgr slots fresh := by
  apply Triple.modify
  intro w hw
  refine ⟨?_, hw.manager, hw.slots, hw.fresh⟩
  cases tunnel with
  | none => exact hw.tunnels
  | some t => exact congrArg (List.erase · t) hw.tunnels

theorem sshTunnelClose_moment : Triple (Moment (tunnel.toList ++ ts) mgr slots fresh)
    (sshTunnelClose tunnel : TunnelM σ Unit) fun _ ↦ Moment ts mgr slots fresh := by
  have hback : tunnel.elim (tunnel.toList ++ ts) (tunnel.toList ++ ts).erase = ts := by
    cases tunnel with
    | none => rfl
    | some t =>
      change (t :: ts).erase t = ts
      rw [List.erase_cons_head]
  have herase := @sshTunnelClose_erase σ (tunnel.toList ++ ts) mgr slots fresh tunnel
  rwa [hback] at herase

theorem sshTunnelOpen_moment {cfg : SshConfig} : Triple (Moment ts mgr slots fresh) (sshTunnelOpen layer cfg)
    (Either (Moment ts mgr slots fresh) fun t w ↦ fresh ≤ t.id ∧ Moment (t :: ts) mgr slots (t.id + 1) w) := by
  refine ⟨fun w hw ↦ ?_⟩
  unfold sshTunnelOpen
  cases h : (layer.sshOpen cfg w.core.drivers).1 with
  | error failure =>
    simp only [StateT.run, h]
    exact either_error ⟨hw.tunnels, hw.manager, hw.slots, hw.fresh⟩
  | ok localPort =>
    simp only [StateT.run, h]
    exact either_ok ⟨hw.fresh, congrArg _ hw.tunnels, hw.manager, hw.slots, le_rfl⟩

/-- An opening that goes on to the driver has a new tunnel, or none. -/
theorem openTunnel_moment : Triple (Moment ts mgr slots fresh) (openTunnel cjson layer dsn)
    (Either (Moment ts mgr slots fresh) fun given w ↦ (∀ t ∈ given.1, fresh ≤ t.id) ∧
      Moment (given.1.toList ++ ts) mgr slots (past fresh given.1) w) := by
  apply Triple.bind (.get (Q := fun _ ↦ Moment ts mgr slots fresh) fun _ hw ↦ hw)
  intro v
  split
  next failure hfailed => exact .pure fun w hw ↦ either_error hw
  next hdirect =>
    refine .pure fun w hw ↦ either_ok ⟨?_, hw⟩
    intro t ht
    cases ht
  next cfg hcfg =>
    split
    next why hwhy => exact .pure fun w hw ↦ either_error hw
    next hsupported =>
      apply Triple.bind sshTunnelOpen_moment
      intro r
      cases r with
      | error failure => exact .pure fun w hw ↦ either_error (hw.1 failure rfl)
      | ok t =>
        apply Triple.bind (Q := fun _ w ↦ fresh ≤ t.id ∧ Moment (t :: ts) mgr slots (t.id + 1) w)
        · exact ⟨fun w hw ↦ hw.2 t rfl⟩
        intro noMemory
        apply Triple.of_imp
        intro hnew
        split
        next hrewrite =>
          apply Triple.bind (@sshTunnelClose_moment _ ts mgr slots (t.id + 1) (some t))
          intro _
          refine .pure fun w hw ↦ either_error ⟨hw.tunnels, hw.manager, hw.slots, ?_⟩
          exact (hnew.trans (Nat.le_succ _)).trans hw.fresh
        next rewritten hrewrite =>
          refine .pure fun w hw ↦ either_ok ⟨?_, hw⟩
          rintro _ ⟨⟩
          exact hnew

/-- From the call of the driver on, a failure closes the tunnel; a success puts it into the slot of the new id. -/
theorem connectThrough_moment : Triple (Moment (tunnel.toList ++ ts) mgr slots fresh)
    (connectThrough env layer driver tunnel dsn) (Either (Moment ts mgr slots fresh) fun _ w ↦
      ∃ s, s.id = mgr.nextId ∧ Moment (tunnel.toList ++ ts) ({ mgr with nextId := mgr.nextId + 1 }.acquire s)
        (Function.update slots mgr.nextId tunnel) fresh w) := by
  have hclosed (failure : Status × Text) : Triple (Moment (tunnel.toList ++ ts) mgr slots fresh)
      (do sshTunnelClose tunnel; return .error failure : TunnelM σ (Except (Status × Text) ℕ))
      (Either (Moment ts mgr slots fresh) fun _ w ↦ ∃ s, s.id = mgr.nextId ∧
        Moment (tunnel.toList ++ ts) ({ mgr with nextId := mgr.nextId + 1 }.acquire s)
          (Function.update slots mgr.nextId tunnel) fresh w) :=
    Triple.bind sshTunnelClose_moment fun _ ↦ .pure fun w hw ↦ either_error hw
  rw [connectThrough]
  apply Triple.bind (onCore_moment (m := offer) ⟨fun _ hw ↦ hw⟩)
  intro handle
  apply Triple.bind (Q := fun _ ↦ Moment (tunnel.toList ++ ts) mgr slots fresh)
  · apply Triple.bind (Q := fun _ ↦ Moment (tunnel.toList ++ ts) mgr slots fresh)
    · exact .modify fun w hw ↦ ⟨hw.tunnels, hw.manager, hw.slots, hw.fresh⟩
    · exact fun _ ↦ perform_moment
  rintro ⟨st, given⟩
  apply Triple.ite
  · intro hfailed
    apply Triple.ite
    · intro hgiven
      apply Triple.bind perform_moment
      intro msg
      exact Triple.bind perform_moment fun _ ↦ hclosed _
    · exact fun _ ↦ hclosed _
  intro hok
  apply Triple.ite
  · exact fun _ ↦ hclosed _
  intro hgiven
  apply Triple.bind getManager_moment
  intro mgr'
  apply Triple.of_imp
  rintro rfl
  apply Triple.bind (Q := fun _ ↦ Moment (tunnel.toList ++ ts) mgr' slots fresh)
  · exact ⟨fun w hw ↦ hw⟩
  intro noMemory
  apply Triple.ite
  · intro hfull
    exact Triple.bind perform_moment fun _ ↦ hclosed _
  intro hroom
  refine ⟨fun w hw ↦ either_ok ⟨⟨mgr'.nextId, driver, handle, none, false⟩, rfl, hw.tunnels, rfl, ?_, hw.fresh⟩⟩
  exact congrArg (Function.update · mgr'.nextId tunnel) hw.slots

theorem le_past (hnew : ∀ t ∈ tunnel, fresh ≤ t.id) : fresh ≤ past fresh tunnel := by
  cases tunnel with
  | none => exact le_rfl
  | some t => exact (hnew t rfl).trans (Nat.le_succ _)

theorem connManagerOpen_moment : Triple (Moment ts mgr slots fresh) (connManagerOpen cjson env layer driver dsn)
    (Either (Moment ts mgr slots fresh) fun _ w ↦ ∃ (tunnel : Option Tunnel) (s : Slot), s.id = mgr.nextId ∧
      (∀ t ∈ tunnel, fresh ≤ t.id) ∧ Moment (tunnel.toList ++ ts)
        ({ mgr with nextId := mgr.nextId + 1 }.acquire s) (Function.update slots mgr.nextId tunnel)
        (past fresh tunnel) w) := by
  apply Triple.bind openTunnel_moment
  intro r
  cases r with
  | error failure => exact .pure fun w hw ↦ either_error (hw.1 failure rfl)
  | ok given =>
    obtain ⟨tunnel, effectiveDsn⟩ := given
    apply Triple.pre (S := fun w ↦ (∀ t ∈ tunnel, fresh ≤ t.id) ∧
      Moment (tunnel.toList ++ ts) mgr slots (past fresh tunnel) w) _ fun w hw ↦ hw.2 _ rfl
    apply Triple.of_imp
    intro hnew
    apply connectThrough_moment.post
    intro opened w hw
    refine ⟨fun failure hfailed ↦ ?_, fun conn hopened ↦ ?_⟩
    · have hleft := hw.1 failure hfailed
      exact ⟨hleft.tunnels, hleft.manager, hleft.slots, (le_past hnew).trans hleft.fresh⟩
    · obtain ⟨s, hs, hmoment⟩ := hw.2 conn hopened
      exact ⟨tunnel, s, hs, hnew, hmoment⟩

end Opening

/-! ## Runs keep the tunnels -/

/-- The tunnel of a live connection. -/
def carried (mgr : Manager) (slots : ℕ → Option Tunnel) (conn : ℕ) : Option Tunnel :=
  (mgr.conn conn).bind fun _ ↦ slots conn

theorem carried_new (slots : ℕ → Option Tunnel) : carried .new slots = fun _ ↦ none := by
  funext conn
  rw [carried, Manager.conn_new, Option.bind_none]

/-- The tunnels that are open are those of the live connections, and the ids of tunnels are not given twice. -/
structure Carries (ts : List Tunnel) (mgr : Manager) (slots : ℕ → Option Tunnel) (fresh : ℕ) : Prop where
  numbered : mgr.Numbered
  issued : ∀ t ∈ ts, t.id < fresh
  owned : Owns ts (carried mgr slots)

def TunnelWorld.Sound (w : TunnelWorld σ) : Prop := Carries w.tunnels w.core.manager w.slotTunnel w.fresh

section Step

variable {ts : List Tunnel} {mgr : Manager} {slots : ℕ → Option Tunnel} {fresh : ℕ} {s : Slot}
  {tunnel : Option Tunnel} {w : TunnelWorld σ}

theorem Carries.sound (h : Carries ts mgr slots fresh) (hw : Moment ts mgr slots fresh w) : w.Sound := by
  unfold TunnelWorld.Sound
  rw [hw.tunnels, hw.manager, hw.slots]
  exact ⟨h.numbered, fun t ht ↦ (h.issued t ht).trans_le hw.fresh, h.owned⟩

theorem Carries.opened (h : Carries ts mgr slots fresh) (hs : s.id = mgr.nextId)
    (hnew : ∀ t ∈ tunnel, fresh ≤ t.id) :
    Carries (tunnel.toList ++ ts) ({ mgr with nextId := mgr.nextId + 1 }.acquire s)
      (Function.update slots mgr.nextId tunnel) (past fresh tunnel) := by
  obtain ⟨hnumbered, -, hconn⟩ := Manager.acquire_conn h.numbered hs
  have hcarried : carried ({ mgr with nextId := mgr.nextId + 1 }.acquire s) (Function.update slots mgr.nextId tunnel) =
      Function.update (carried mgr slots) mgr.nextId tunnel := by
    funext other
    rw [carried, hconn]
    by_cases hsame : other = mgr.nextId
    · subst hsame
      simp
    · simp [hsame, carried]
  have hfree : carried mgr slots mgr.nextId = none := by
    rw [carried, h.numbered.conn_next le_rfl, Option.bind_none]
  refine ⟨hnumbered, fun t ht ↦ ?_, ?_⟩
  · cases tunnel with
    | none => exact h.issued t ht
    | some new =>
      rcases List.mem_cons.1 ht with rfl | ht
      · exact Nat.lt_succ_self _
      · exact (h.issued t ht).trans_le ((hnew new rfl).trans (Nat.le_succ _))
  · rw [hcarried]
    exact h.owned.give hfree fun t ht hmem ↦ absurd (h.issued t hmem) (hnew t ht).not_gt

theorem Carries.closed {i : ℕ} (h : Carries ts mgr slots fresh) (hfind : mgr.findSlot s.id = some (i, s)) :
    Carries ((slots s.id).elim ts ts.erase) (mgr.setSlot i none) (Function.update slots s.id none) fresh := by
  have hsets := Manager.sets_setSlot h.numbered hfind (x := none) fun t ht ↦ by cases ht
  have hcarried : carried (mgr.setSlot i none) (Function.update slots s.id none) =
      Function.update (carried mgr slots) s.id none := by
    funext other
    rw [carried, hsets.conn]
    by_cases hsame : other = s.id
    · subst hsame
      simp
    · simp [hsame, carried]
  have hholds : carried mgr slots s.id = slots s.id := by rw [carried, Manager.conn_of_find hfind, Option.bind_some]
  have htaken := h.owned.take s.id
  rw [hholds] at htaken
  refine ⟨hsets.numbered, fun t ht ↦ h.issued t ?_, hcarried ▸ htaken⟩
  cases hslot : slots s.id with
  | none =>
    rw [hslot] at ht
    exact ht
  | some old =>
    rw [hslot] at ht
    exact List.mem_of_mem_erase ht

theorem connManagerOpen_sound {driver dsn : Text} :
    Triple TunnelWorld.Sound (connManagerOpen cjson env layer driver dsn) fun _ ↦ TunnelWorld.Sound := by
  refine ⟨fun w hw ↦ ?_⟩
  have hopen := @connManagerOpen_moment _ cjson env layer w.tunnels w.core.manager w.slotTunnel w.fresh driver dsn
  have hrun := hopen.run w ⟨rfl, rfl, rfl, le_rfl⟩
  cases hopened : ((connManagerOpen cjson env layer driver dsn).run w).1 with
  | error failure => exact hw.sound (hrun.1 failure hopened)
  | ok conn =>
    obtain ⟨tunnel, s, hs, hnew, hmoment⟩ := hrun.2 conn hopened
    exact (hw.opened hs hnew).sound hmoment

theorem releaseSlot_manager {i : ℕ} : Triple (fun w ↦ w.manager = mgr) (Core.releaseSlot env i s)
    fun _ w ↦ w.manager = mgr.setSlot i none := by
  apply Triple.bind (Q := fun _ w ↦ w.manager = mgr)
  · cases s.cursor with
    | none => exact .pure fun w hw ↦ hw
    | some r =>
      rw [freeOther]
      exact .ite (fun _ ↦ perform_manager) fun _ ↦ .pure fun w hw ↦ hw
  intro _
  apply Triple.bind (getManager_spec fun w hw ↦ hw)
  intro m
  apply Triple.of_imp
  rintro rfl
  apply Triple.bind (setManager_spec (Q := fun _ w ↦
    w.manager = mgr.setSlot i (some { s with cursor := none })) fun w hw ↦ rfl)
  intro _
  apply Triple.bind perform_manager
  intro _
  apply Triple.bind (getManager_spec fun w hw ↦ hw)
  intro m
  apply Triple.of_imp
  rintro rfl
  refine setManager_spec fun w hw ↦ ?_
  rw [Manager.setSlot_setSlot]

/-- A release takes the connection out of its slot, and its tunnel with it. -/
theorem releaseSlot_moment {i : ℕ} : Triple (Moment ts mgr slots fresh) (releaseSlot env i s)
    fun _ ↦ Moment ((slots s.id).elim ts ts.erase) (mgr.setSlot i none) (Function.update slots s.id none) fresh := by
  apply Triple.bind (Q := fun _ ↦ Moment ts (mgr.setSlot i none) slots fresh)
  · refine ⟨fun w hw ↦ ⟨hw.tunnels, ?_, hw.slots, hw.fresh⟩⟩
    exact releaseSlot_manager.run w.core hw.manager
  intro _
  apply Triple.bind (.get (Q := fun u w ↦ u.slotTunnel = slots ∧ Moment ts (mgr.setSlot i none) slots fresh w)
    fun w hw ↦ ⟨hw.slots, hw⟩)
  intro u
  apply Triple.of_imp
  intro hslots
  rw [hslots]
  apply Triple.bind sshTunnelClose_erase
  intro _
  exact .modify fun w hw ↦
    ⟨hw.tunnels, hw.manager, congrArg (Function.update · s.id none) hw.slots, hw.fresh⟩

theorem connManagerClose_sound (conn : ℕ) :
    Triple TunnelWorld.Sound (connManagerClose env conn) fun _ ↦ TunnelWorld.Sound := by
  refine ⟨fun w hw ↦ ?_⟩
  have hclose : Triple (Moment w.tunnels w.core.manager w.slotTunnel w.fresh) (connManagerClose env conn)
      fun _ ↦ TunnelWorld.Sound := by
    apply Triple.bind getManager_moment
    intro mgr
    apply Triple.of_imp
    rintro rfl
    cases hfind : w.core.manager.findSlot conn with
    | none => exact .pure fun v hv ↦ hw.sound hv
    | some found =>
      obtain ⟨i, s⟩ := found
      obtain rfl : s.id = conn := (Manager.findSlot_eq_some hfind).2.1
      have hrelease : Triple (Moment w.tunnels w.core.manager w.slotTunnel w.fresh)
          (releaseSlot env i s >>= fun _ ↦ pure Status.ok) fun _ ↦ TunnelWorld.Sound := by
        apply Triple.bind releaseSlot_moment
        intro _
        exact .pure fun v hv ↦ (hw.closed hfind).sound hv
      exact hrelease
  exact hclose.run w ⟨rfl, rfl, rfl, le_rfl⟩

theorem findIn_append {before after : List (Option Slot)} (hbefore : ∀ x ∈ before, x = none) :
    Manager.findIn s.id (before ++ some s :: after) = some (before.length, s) := by
  induction before with
  | nil => exact if_pos rfl
  | cons x before ih =>
    obtain rfl := hbefore x List.mem_cons_self
    have hrest := ih fun y hy ↦ hbefore y (List.mem_cons_of_mem _ hy)
    rw [List.cons_append, Manager.findIn, hrest]
    rfl

/-- The slots before `after` are free, and behind the loop so is every slot. -/
theorem releaseAll_sound {before after : List (Option Slot)} (h : Carries ts mgr slots fresh)
    (hslots : mgr.slots = before ++ after) (hbefore : ∀ x ∈ before, x = none) :
    Triple (Moment ts mgr slots fresh) (releaseAll env before.length after)
      fun _ w ↦ w.Sound ∧ w.core.manager.live = [] := by
  induction after generalizing before mgr ts slots with
  | nil =>
    refine .pure fun w hw ↦ ⟨h.sound hw, ?_⟩
    rw [hw.manager, Manager.live, hslots, List.append_nil, List.eq_nil_iff_forall_not_mem]
    intro s hs
    cases hbefore _ (List.reduceOption_mem_iff.mp hs)
  | cons x after ih =>
    have hnext {ts : List Tunnel} {mgr : Manager} {slots : ℕ → Option Tunnel} (h : Carries ts mgr slots fresh)
        (hslots : mgr.slots = before ++ none :: after) :
        Triple (Moment ts mgr slots fresh) (releaseAll env (before.length + 1) after)
          fun _ w ↦ w.Sound ∧ w.core.manager.live = [] := by
      have hlonger : mgr.slots = (before ++ [none]) ++ after := by
        rw [hslots, List.append_assoc, List.singleton_append]
      have hfree : ∀ y ∈ before ++ [none], y = none := by
        intro y hy
        rcases List.mem_append.1 hy with hy | hy
        · exact hbefore y hy
        · exact List.mem_singleton.1 hy
      have hstep := ih h hlonger hfree
      rwa [List.length_append, List.length_singleton] at hstep
    cases x with
    | none => exact hnext h hslots
    | some s =>
      have hlive : s ∈ mgr.live := by
        rw [Manager.live, hslots, List.reduceOption_mem_iff]
        exact List.mem_append_right _ List.mem_cons_self
      have hfind : mgr.findSlot s.id = some (before.length, s) := by
        rw [Manager.findSlot, if_neg (h.numbered.id_pos s hlive).ne', hslots]
        exact findIn_append hbefore
      apply Triple.bind releaseSlot_moment
      intro _
      apply hnext (h.closed hfind)
      rw [Manager.setSlot, hslots, List.set_append_right _ _ le_rfl, Nat.sub_self]
      rfl

/-- When the manager is freed no tunnel is left. -/
theorem connManagerFree_sound : Triple TunnelWorld.Sound (connManagerFree env)
    fun _ w ↦ w.Sound ∧ w.tunnels = [] := by
  refine ⟨fun w hw ↦ ?_⟩
  have hfree : Triple (Moment w.tunnels w.core.manager w.slotTunnel w.fresh) (connManagerFree env)
      fun _ v ↦ v.Sound ∧ v.tunnels = [] := by
    apply Triple.bind getManager_moment
    intro mgr
    apply Triple.of_imp
    rintro rfl
    apply Triple.bind (releaseAll_sound hw (List.nil_append _).symm fun x hx ↦ by cases hx)
    intro _
    refine ⟨fun v hv ↦ ?_⟩
    obtain ⟨hsound, hlive⟩ := hv
    have hnone : carried v.core.manager v.slotTunnel = fun _ ↦ none := by
      funext conn
      rw [carried, Option.bind_eq_none_iff]
      intro s hs
      have hmem := (Manager.mem_live_of_conn hs).1
      rw [hlive] at hmem
      cases hmem
    have htunnels : v.tunnels = [] := by
      rw [List.eq_nil_iff_forall_not_mem]
      intro t ht
      obtain ⟨conn, hconn⟩ := (hsound.owned.mem_iff t).mp ht
      rw [hnone] at hconn
      cases hconn
    refine ⟨⟨Manager.numbered_new, hsound.issued, ?_⟩, htunnels⟩
    change Owns v.tunnels (carried .new v.slotTunnel)
    rw [carried_new, htunnels]
    exact .empty
  exact hfree.run w ⟨rfl, rfl, rfl, le_rfl⟩

theorem ManagerOp.run_sound (op : ManagerOp) :
    Triple TunnelWorld.Sound (op.run cjson env layer) fun _ ↦ TunnelWorld.Sound := by
  cases op with
  | opening driver dsn => exact Triple.map connManagerOpen_sound
  | closing conn => exact Triple.map (connManagerClose_sound conn)
  | freeing => exact Triple.map (connManagerFree_sound.post fun _ w hw ↦ hw.1)

theorem runManager_sound (ops : List ManagerOp) :
    Triple TunnelWorld.Sound (runManager cjson env layer ops) fun _ ↦ TunnelWorld.Sound := by
  induction ops with
  | nil => exact .pure fun w hw ↦ hw
  | cons op ops ih =>
    apply Triple.bind (ManagerOp.run_sound op)
    intro answer
    apply Triple.bind ih
    intro answers
    exact .pure fun w hw ↦ hw

end Step

/-! ## The result -/

def startingWorld (drivers : σ) : TunnelWorld σ := ⟨⟨drivers, .new, 0, []⟩, [], 0, fun _ ↦ none, []⟩

theorem startingWorld_sound (drivers : σ) : (startingWorld drivers).Sound := by
  refine ⟨Manager.numbered_new, fun t ht ↦ (by cases ht), ?_⟩
  change Owns [] (carried .new (startingWorld drivers).slotTunnel)
  rw [carried_new]
  exact .empty

/-- The tunnel `t` belongs to the live connection `conn`. -/
def TunnelWorld.Has (w : TunnelWorld σ) (conn : ℕ) (t : Tunnel) : Prop :=
  (w.core.manager.conn conn).isSome ∧ w.slotTunnel conn = some t

theorem TunnelWorld.has_iff (w : TunnelWorld σ) (conn : ℕ) (t : Tunnel) :
    w.Has conn t ↔ carried w.core.manager w.slotTunnel conn = some t := by
  rw [TunnelWorld.Has, carried]
  cases w.core.manager.conn conn with
  | none => simp
  | some s => simp

/-- Behind every run the tunnels that are open are those of the live connections, one has its own, and freeing the
manager leaves none. -/
theorem runManager_keepsTunnels (cjson : CJson) (env : Env σ) (layer : SshLayer σ) (ops : List ManagerOp)
    (drivers : σ) :
    let w := ((runManager cjson env layer ops).run (startingWorld drivers)).2
    w.tunnels.Nodup ∧ (∀ t, t ∈ w.tunnels ↔ ∃ conn, w.Has conn t) ∧
      (∀ conn other t, w.Has conn t → w.Has other t → conn = other) ∧
      ((connManagerFree env).run w).2.tunnels = [] := by
  intro w
  have hsound : w.Sound := (runManager_sound ops).run _ (startingWorld_sound drivers)
  refine ⟨hsound.owned.nodup, fun t ↦ ?_, fun conn other t h h' ↦ ?_, ?_⟩
  · rw [hsound.owned.mem_iff]
    exact exists_congr fun conn ↦ (w.has_iff conn t).symm
  · exact hsound.owned.alone conn other t ((w.has_iff conn t).mp h) ((w.has_iff other t).mp h')
  · exact (connManagerFree_sound.run w hsound).2

end Squaero.Conn
