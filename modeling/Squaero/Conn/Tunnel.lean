import Mathlib.Logic.Function.Basic
import Squaero.Conn.Dsn
import Squaero.Core.Frame
import Squaero.Core.TableDriver
import Squaero.Lib.JsonPrint

/-!
# Connections through an SSH tunnel

`dbcore_conn_manager_open` with the tunnel that the manager of `Core/Manager` leaves to its environment:
the port forward is opened before the driver connects and stands in the slot beside the connection.
The tunnels there are, and the DSN each driver was given, are part of the world.
-/

namespace Squaero.Conn

open Squaero.Lib Squaero.Core Squaero.Ipc

/-- `ssh_tunnel`, a forward from a port of the loopback address. -/
structure Tunnel where
  id : ℕ
  localPort : ℕ
  deriving DecidableEq, Repr

/-- The core with the tunnels that are open and the `tunnel` of each slot, by the id of its connection.
`passed` lists what `connect` was called with, the latest first; no function reads it. -/
structure TunnelWorld (σ : Type) where
  core : World σ
  tunnels : List Tunnel
  fresh : ℕ
  slotTunnel : ℕ → Option Tunnel
  passed : List (Option Tunnel × Text)

/-- `ssh_tunnel_open`, which answers with its local port, and which allocations fail. -/
structure SshLayer (σ : Type) where
  sshOpen : SshConfig → σ → Except (Status × Text) ℕ × σ
  fails : Allocation → σ → Bool

abbrev TunnelM (σ : Type) := StateM (TunnelWorld σ)

variable {σ : Type} (cjson : CJson) (env : Env σ) (layer : SshLayer σ)

/-! ## Opening -/

/-- A program of the core beside the tunnels. -/
def onCore {α : Type} (m : CoreM σ α) : TunnelM σ α := fun w ↦
  let r := m.run w.core
  (r.1, { w with core := r.2 })

def failing (allocation : Allocation) : TunnelM σ Bool := fun w ↦
  (layer.fails allocation w.core.drivers, w)

/-- `ssh_tunnel_open`. -/
def sshTunnelOpen (cfg : SshConfig) : TunnelM σ (Except (Status × Text) Tunnel) := fun w ↦
  let r := layer.sshOpen cfg w.core.drivers
  let core := { w.core with drivers := r.2 }
  match r.1 with
  | .error failure => (.error failure, { w with core := core })
  | .ok localPort =>
    let tunnel := ⟨w.fresh, localPort⟩
    (.ok tunnel, { w with core := core, fresh := w.fresh + 1, tunnels := tunnel :: w.tunnels })

/-- `ssh_tunnel_close`; none is a null pointer. -/
def sshTunnelClose (tunnel : Option Tunnel) : TunnelM σ Unit := modify fun w ↦
  { w with tunnels := match tunnel with
      | none => w.tunnels
      | some t => w.tunnels.erase t }

/-- `connect` of a driver. -/
def connect (driver dsn : Text) (handle : Handle) (tunnel : Option Tunnel) :
    TunnelM σ (Status × Bool) := do
  modify fun w ↦ { w with passed := (tunnel, dsn) :: w.passed }
  onCore (perform env driver (.connect dsn handle))

/-- The first half of `dbcore_conn_manager_open`: the tunnel a DSN asks for, and the DSN that is left
for the driver. -/
def openTunnel (dsn : Text) : TunnelM σ (Except (Status × Text) (Option Tunnel × Text)) := do
  let w ← get
  match sshConfigParse (layer.fails · w.core.drivers) (cjson.parse dsn) with
  | .error failure => return .error (failure.1, copyError (some failure.2))
  | .ok none => return .ok (none, dsn)
  | .ok (some cfg) =>
    match dsnTunnelUnsupported (cjson.parse dsn) with
    | some why => return .error (.param, copyError (some why))
    | none =>
      match ← sshTunnelOpen layer cfg with
      | .error failure => return .error failure
      | .ok tunnel =>
        let noMemory ← failing layer .rewrite
        match dsnRewriteLoopback cjson noMemory dsn tunnel.localPort with
        | none =>
          sshTunnelClose (some tunnel)
          return .error (.nomem, copyError (some "could not rewrite dsn for ssh tunnel".toList))
        | some rewritten => return .ok (some tunnel, rewritten)

/-- The rest of `dbcore_conn_manager_open`, from the call of the driver on. -/
def connectThrough (driver : Text) (tunnel : Option Tunnel) (effectiveDsn : Text) :
    TunnelM σ (Except (Status × Text) ℕ) := do
  let handle ← onCore offer
  let (st, given) ← connect env driver effectiveDsn handle tunnel
  if st ≠ .ok then
    if given then
      let msg ← onCore (perform env driver (.lastError handle))
      onCore (perform env driver (.disconnect handle))
      sshTunnelClose tunnel
      return .error (st, copyError msg)
    else
      sshTunnelClose tunnel
      return .error (st, copyError (some "could not connect".toList))
  else if !given then
    sshTunnelClose tunnel
    return .error (.param,
      copyError (some "driver reported success but returned no handle".toList))
  else
    let mgr ← onCore getManager
    let noMemory ← failing layer .slot
    if mgr.slots.idxOf? none = none ∧ noMemory then
      onCore (perform env driver (.disconnect handle))
      sshTunnelClose tunnel
      return .error (.nomem, copyError (some "out of memory".toList))
    else
      let id := mgr.nextId
      onCore (setManager
        ({ mgr with nextId := id + 1 }.acquire ⟨id, driver, handle, none, false⟩))
      modify fun w ↦ { w with slotTunnel := Function.update w.slotTunnel id tunnel }
      return .ok id

/-- `dbcore_conn_manager_open`: the new id, or a status and its text. -/
def connManagerOpen (driver dsn : Text) : TunnelM σ (Except (Status × Text) ℕ) := do
  match ← openTunnel cjson layer dsn with
  | .error failure => return .error failure
  | .ok (tunnel, effectiveDsn) => connectThrough env layer driver tunnel effectiveDsn

/-- `dbcore_conn_manager_close`: the tunnel goes after the connection that rides it. -/
def connManagerClose (id : ℕ) : TunnelM σ Status := do
  let mgr ← onCore getManager
  match mgr.findSlot id with
  | none => return .param
  | some (i, s) =>
    onCore (releaseSlot env i s)
    let w ← get
    sshTunnelClose (w.slotTunnel id)
    modify fun w ↦ { w with slotTunnel := Function.update w.slotTunnel id none }
    return .ok

/-! ## The manager without the tunnels -/

/-- The DSN that is left for the driver, as the manager without tunnels takes it from its environment. -/
def tunnelDsn (dsn : Text) (drivers : σ) : Except (Status × Text) Text × σ :=
  match sshConfigParse (fun _ ↦ false) (cjson.parse dsn) with
  | .error failure => (.error (failure.1, copyError (some failure.2)), drivers)
  | .ok none => (.ok dsn, drivers)
  | .ok (some cfg) =>
    match dsnTunnelUnsupported (cjson.parse dsn) with
    | some why => (.error (.param, copyError (some why)), drivers)
    | none =>
      let r := layer.sshOpen cfg drivers
      match r.1 with
      | .error failure => (.error failure, r.2)
      | .ok localPort =>
        match dsnRewriteLoopback cjson false dsn localPort with
        | none =>
          (.error (.nomem, copyError (some "could not rewrite dsn for ssh tunnel".toList)), r.2)
        | some rewritten => (.ok rewritten, r.2)

def withoutTunnels : Env σ := { env with tunnelDsn := tunnelDsn cjson layer }

/-- `m` does to the core what `m'` does, whose value is `g` of its own. -/
def Erases {α β : Type} (g : α → β) (m : TunnelM σ α) (m' : CoreM σ β) : Prop :=
  ∀ w, g (m.run w).1 = (m'.run w.core).1 ∧ (m.run w).2.core = (m'.run w.core).2

section Erasure

variable {α β γ δ : Type} {g : α → β} {h : γ → δ} {m : TunnelM σ α} {m' : CoreM σ β}
  {f : α → TunnelM σ γ} {f' : β → CoreM σ δ}

theorem erases_pure {a : α} {b : β} (hab : g a = b) : Erases (σ := σ) g (pure a) (pure b) :=
  fun _ ↦ ⟨hab, rfl⟩

theorem erases_onCore (m' : CoreM σ α) : Erases id (onCore m') m' := fun _ ↦ ⟨rfl, rfl⟩

theorem Erases.bind (hm : Erases g m m') (hf : ∀ a, Erases h (f a) (f' (g a))) :
    Erases h (m >>= f) (m' >>= f') := by
  intro w
  obtain ⟨hvalue, hcore⟩ := hm w
  have hrest := hf (m.run w).1 (m.run w).2
  rw [hcore, hvalue] at hrest
  exact hrest

/-- A step the core does not see. -/
theorem Erases.skip {k : CoreM σ δ} (hm : ∀ w, (m.run w).2.core = w.core)
    (hf : ∀ w, Erases h (f (m.run w).1) k) : Erases h (m >>= f) k := by
  intro w
  have hrest := hf w (m.run w).2
  rw [hm w] at hrest
  exact hrest

theorem Erases.ite {c : Prop} [Decidable c] {n : TunnelM σ α} {n' : CoreM σ β}
    (hm : c → Erases g m m') (hn : ¬ c → Erases g n n') :
    Erases g (if c then m else n) (if c then m' else n') := by
  split_ifs with h
  · exact hm h
  · exact hn h

end Erasure

/-- The second half of the manager without tunnels. -/
def connectDirectly (driver dsn : Text) : CoreM σ (Except (Status × Text) ℕ) := do
  let handle ← offer
  let (st, given) ← perform (withoutTunnels cjson env layer) driver (.connect dsn handle)
  if st ≠ .ok then
    if given then
      let msg ← perform (withoutTunnels cjson env layer) driver (.lastError handle)
      perform (withoutTunnels cjson env layer) driver (.disconnect handle)
      return .error (st, copyError msg)
    else return .error (st, copyError (some "could not connect".toList))
  else if !given then
    return .error (.param,
      copyError (some "driver reported success but returned no handle".toList))
  else
    let mgr ← getManager
    let id := mgr.nextId
    setManager ({ mgr with nextId := id + 1 }.acquire ⟨id, driver, handle, none, false⟩)
    return .ok id

theorem connectThrough_erases (hfails : ∀ s, layer.fails .slot s = false) (driver dsn : Text)
    (tunnel : Option Tunnel) : Erases id (connectThrough env layer driver tunnel dsn)
      (connectDirectly cjson env layer driver dsn) := by
  have hclose (failure : Status × Text) : Erases id
      (do sshTunnelClose tunnel; return .error failure : TunnelM σ (Except (Status × Text) ℕ))
      (pure (.error failure)) := .skip (fun _ ↦ rfl) fun _ ↦ erases_pure rfl
  apply Erases.bind (erases_onCore _)
  intro handle
  apply Erases.bind (g := id)
  · exact .skip (fun _ ↦ rfl) fun _ ↦ erases_onCore _
  rintro ⟨st, given⟩
  apply Erases.ite
  · intro hfailed
    apply Erases.ite
    · intro hgiven
      apply Erases.bind (erases_onCore _)
      intro msg
      exact Erases.bind (erases_onCore _) fun _ ↦ hclose _
    · exact fun _ ↦ hclose _
  intro hok
  apply Erases.ite
  · exact fun _ ↦ hclose _
  intro hgiven
  apply Erases.bind (erases_onCore _)
  intro mgr
  refine Erases.skip (fun _ ↦ rfl) fun w ↦ ?_
  have hroom : ¬ (mgr.slots.idxOf? none = none ∧ ((failing layer .slot).run w).1 = true) :=
    fun hfull ↦ Bool.false_ne_true ((hfails w.core.drivers).symm.trans hfull.2)
  rw [if_neg hroom]
  apply Erases.bind (erases_onCore _)
  intro _
  exact .skip (fun _ ↦ rfl) fun _ ↦ erases_pure rfl

theorem openTunnel_erases (hfails : ∀ a s, layer.fails a s = false) (dsn : Text) :
    Erases (Except.map Prod.snd) (openTunnel cjson layer dsn)
      (Core.openTunnel (withoutTunnels cjson env layer) dsn) := by
  intro w
  have hnone : (layer.fails · w.core.drivers) = fun _ ↦ false := by
    funext a
    exact hfails a _
  have hright : (Core.openTunnel (withoutTunnels cjson env layer) dsn).run w.core =
      ((tunnelDsn cjson layer dsn w.core.drivers).1,
        { w.core with drivers := (tunnelDsn cjson layer dsn w.core.drivers).2 }) := rfl
  rw [hright, openTunnel, tunnelDsn]
  simp only [StateT.run_bind, StateT.run_get, pure_bind, hnone]
  cases hconfig : sshConfigParse (fun _ ↦ false) (cjson.parse dsn) with
  | error failure => exact ⟨rfl, rfl⟩
  | ok asked =>
    cases asked with
    | none => exact ⟨rfl, rfl⟩
    | some cfg =>
      cases hsupported : dsnTunnelUnsupported (cjson.parse dsn) with
      | some why => exact ⟨rfl, rfl⟩
      | none =>
        simp only [StateT.run_bind]
        cases hopen : (layer.sshOpen cfg w.core.drivers).1 with
        | error failure =>
          have hrun : (sshTunnelOpen layer cfg).run w = (.error failure,
              { w with core := { w.core with drivers := (layer.sshOpen cfg w.core.drivers).2 } }) := by
            simp only [sshTunnelOpen, StateT.run, hopen]
          rw [hrun]
          exact ⟨rfl, rfl⟩
        | ok localPort =>
          let drivers := (layer.sshOpen cfg w.core.drivers).2
          have hrun : (sshTunnelOpen layer cfg).run w = (.ok ⟨w.fresh, localPort⟩,
              { w with core := { w.core with drivers := drivers }, fresh := w.fresh + 1,
                        tunnels := ⟨w.fresh, localPort⟩ :: w.tunnels }) := by
            simp only [sshTunnelOpen, StateT.run, hopen, drivers]
          have hmemory : layer.fails .rewrite drivers = false := hfails _ _
          rw [hrun]
          cases hrewrite : dsnRewriteLoopback cjson false dsn localPort with
          | none =>
            simp only [failing, StateT.run, bind, StateT.bind, hmemory, hrewrite]
            exact ⟨rfl, rfl⟩
          | some rewritten =>
            simp only [failing, StateT.run, bind, StateT.bind, hmemory, hrewrite]
            exact ⟨rfl, rfl⟩

/-- While no allocation fails, the manager with tunnels is the one without them, whose environment
rewrites the DSN. -/
theorem connManagerOpen_erases (hfails : ∀ a s, layer.fails a s = false) (driver dsn : Text) :
    Erases id (connManagerOpen cjson env layer driver dsn)
      (Core.connManagerOpen (withoutTunnels cjson env layer) driver dsn) := by
  apply Erases.bind (openTunnel_erases cjson env layer hfails dsn)
  intro r
  cases r with
  | error failure => exact erases_pure rfl
  | ok given => exact connectThrough_erases cjson env layer (hfails .slot) driver given.2 given.1

/-! ## Release -/

variable {cjson env layer}

/-- The tunnels, the slots and what drivers were passed, at one moment. -/
structure At (tunnels : List Tunnel) (mgr : Manager) (passed : List (Option Tunnel × Text))
    (w : TunnelWorld σ) : Prop where
  tunnels : w.tunnels = tunnels
  manager : w.core.manager = mgr
  passed : w.passed = passed

section Moments

variable {ts : List Tunnel} {mgr : Manager} {passed : List (Option Tunnel × Text)} {driver dsn : Text}
  {tunnel : Option Tunnel}

theorem onCore_at {α : Type} {m : CoreM σ α}
    (hm : Triple (fun w ↦ w.manager = mgr) m fun _ w ↦ w.manager = mgr) :
    Triple (At ts mgr passed) (onCore m) fun _ ↦ At ts mgr passed :=
  ⟨fun w hw ↦ ⟨hw.tunnels, hm.run w.core hw.manager, hw.passed⟩⟩

theorem perform_at {α : Type} {call : Call α} :
    Triple (At ts mgr passed) (onCore (perform env driver call)) fun _ ↦ At ts mgr passed :=
  onCore_at ⟨fun _ hw ↦ hw⟩

theorem failing_at {allocation : Allocation} :
    Triple (At ts mgr passed) (failing layer allocation) fun _ ↦ At ts mgr passed :=
  ⟨fun _ hw ↦ hw⟩

theorem sshTunnelClose_at : Triple (At (tunnel.toList ++ ts) mgr passed)
    (sshTunnelClose tunnel : TunnelM σ Unit) fun _ ↦ At ts mgr passed := by
  apply Triple.modify
  intro w hw
  cases tunnel with
  | none => exact hw
  | some t =>
    have hopen : w.tunnels = t :: ts := hw.tunnels
    have herase : w.tunnels.erase t = ts := by rw [hopen, List.erase_cons_head]
    exact ⟨herase, hw.manager, hw.passed⟩

theorem sshTunnelOpen_at {cfg : SshConfig} : Triple (At ts mgr passed) (sshTunnelOpen layer cfg)
    fun r ↦ match r with
      | .error _ => At ts mgr passed
      | .ok t => At (t :: ts) mgr passed := by
  refine ⟨fun w hw ↦ ?_⟩
  unfold sshTunnelOpen
  cases h : (layer.sshOpen cfg w.core.drivers).1 with
  | error failure =>
    simp only [StateT.run, h]
    exact ⟨hw.tunnels, hw.manager, hw.passed⟩
  | ok localPort =>
    simp only [StateT.run, h]
    exact ⟨congrArg _ hw.tunnels, hw.manager, hw.passed⟩

/-- A tunnel the DSN asked for is open with the rewritten DSN beside it, or none is. -/
theorem openTunnel_at : Triple (At ts mgr passed) (openTunnel cjson layer dsn)
    fun r w ↦ match r with
      | .error _ => At ts mgr passed w
      | .ok (none, effectiveDsn) => At ts mgr passed w ∧ effectiveDsn = dsn ∧
          ∃ fails, sshConfigParse fails (cjson.parse dsn) = .ok none
      | .ok (some t, rewritten) => At (t :: ts) mgr passed w ∧
          dsnTunnelUnsupported (cjson.parse dsn) = none ∧
          ∃ noMemory, dsnRewriteLoopback cjson noMemory dsn t.localPort = some rewritten := by
  apply Triple.bind (.get (Q := fun _ ↦ At ts mgr passed) fun _ hw ↦ hw)
  intro v
  split
  next failure hfailed => exact .pure fun w hw ↦ hw
  next hdirect => exact .pure fun w hw ↦ ⟨hw, rfl, _, hdirect⟩
  next cfg hcfg =>
    split
    next why hwhy => exact .pure fun w hw ↦ hw
    next hsupported =>
      apply Triple.bind sshTunnelOpen_at
      intro r
      cases r with
      | error failure => exact .pure fun w hw ↦ hw
      | ok t =>
        apply Triple.bind failing_at
        intro noMemory
        split
        next hrewrite =>
          exact Triple.bind (@sshTunnelClose_at _ ts mgr passed (some t)) fun _ ↦
            .pure fun w hw ↦ hw
        next rewritten hrewrite =>
          exact .pure fun w hw ↦ ⟨hw, hsupported, noMemory, hrewrite⟩

/-- The tunnel of an opening that goes on to the driver. -/
theorem openTunnel_tunnel : Triple (At ts mgr passed) (openTunnel cjson layer dsn)
    fun r w ↦ match r with
      | .error _ => At ts mgr passed w
      | .ok (tunnel, _) => At (tunnel.toList ++ ts) mgr passed w := by
  apply openTunnel_at.post
  intro r w hw
  match r with
  | .error _ => exact hw
  | .ok (none, _) => exact hw.1
  | .ok (some _, _) => exact hw.1

/-- From the call of the driver on, a failure closes the tunnel and takes no slot. -/
theorem connectThrough_at : Triple (At (tunnel.toList ++ ts) mgr passed)
    (connectThrough env layer driver tunnel dsn) fun opened w ↦ match opened with
      | .error _ => w.tunnels = ts ∧ w.core.manager = mgr
      | .ok _ => w.tunnels = tunnel.toList ++ ts ∧ w.passed = (tunnel, dsn) :: passed := by
  have hclosed (failure : Status × Text) : Triple
      (At (tunnel.toList ++ ts) mgr ((tunnel, dsn) :: passed))
      (do sshTunnelClose tunnel; return .error failure : TunnelM σ (Except (Status × Text) ℕ))
      fun opened w ↦ match opened with
        | .error _ => w.tunnels = ts ∧ w.core.manager = mgr
        | .ok _ => w.tunnels = tunnel.toList ++ ts ∧ w.passed = (tunnel, dsn) :: passed :=
    Triple.bind sshTunnelClose_at fun _ ↦ .pure fun w hw ↦ ⟨hw.tunnels, hw.manager⟩
  rw [connectThrough]
  apply Triple.bind (onCore_at (m := offer) ⟨fun _ hw ↦ hw⟩)
  intro handle
  apply Triple.bind (Q := fun _ ↦ At (tunnel.toList ++ ts) mgr ((tunnel, dsn) :: passed))
  · apply Triple.bind (Q := fun _ ↦ At (tunnel.toList ++ ts) mgr ((tunnel, dsn) :: passed))
    · exact .modify fun w hw ↦ ⟨hw.tunnels, hw.manager, congrArg _ hw.passed⟩
    · exact fun _ ↦ perform_at
  rintro ⟨st, given⟩
  apply Triple.ite
  · intro hfailed
    apply Triple.ite
    · intro hgiven
      apply Triple.bind perform_at
      intro msg
      exact Triple.bind perform_at fun _ ↦ hclosed _
    · exact fun _ ↦ hclosed _
  intro hok
  apply Triple.ite
  · exact fun _ ↦ hclosed _
  intro hgiven
  apply Triple.bind (onCore_at (m := getManager) ⟨fun _ hw ↦ hw⟩)
  intro mgr'
  apply Triple.bind failing_at
  intro noMemory
  apply Triple.ite
  · intro hfull
    exact Triple.bind perform_at fun _ ↦ hclosed _
  intro hroom
  refine ⟨fun w hw ↦ ?_⟩
  exact ⟨hw.tunnels, hw.passed⟩

/-- Whatever the DSN, an opening that fails leaves the tunnels and the slots as they were. -/
theorem connManagerOpen_released {w : TunnelWorld σ} {failure : Status × Text}
    (h : ((connManagerOpen cjson env layer driver dsn).run w).1 = .error failure) :
    let w' := ((connManagerOpen cjson env layer driver dsn).run w).2
    w'.tunnels = w.tunnels ∧ w'.core.manager = w.core.manager := by
  have hopen : Triple (At w.tunnels w.core.manager w.passed)
      (connManagerOpen cjson env layer driver dsn) fun opened w' ↦ ∀ failure,
        opened = .error failure → w'.tunnels = w.tunnels ∧ w'.core.manager = w.core.manager := by
    apply Triple.bind openTunnel_tunnel
    intro r
    cases r with
    | error failure => exact .pure fun w' hw' _ _ ↦ ⟨hw'.tunnels, hw'.manager⟩
    | ok given =>
      apply connectThrough_at.post
      rintro opened w' hw' failure rfl
      exact hw'
  exact hopen.run w ⟨rfl, rfl, rfl⟩ failure h

end Moments

/-! ## Redirection -/

variable {uriHosts : Text → List (Text × ℕ)} {driver dsn : Text} {members : List (Text × Json)}
  {cfg : SshConfig}

/-- One opening from `w` to `w'` was not led past its tunnel: where it succeeds the driver was passed a
DSN that leads to the local end of an open tunnel and nowhere else, and where it fails no tunnel and no
slot is left of it. -/
structure KeptToTunnel (cjson : CJson) (uriHosts : Text → List (Text × ℕ)) (driver : Text)
    (w w' : TunnelWorld σ) (opened : Except (Status × Text) ℕ) : Prop where
  redirected : ∀ id, opened = .ok id → ∃ tunnel rewritten,
    w'.passed = (some tunnel, rewritten) :: w.passed ∧ tunnel ∈ w'.tunnels ∧
      PointsAt tunnel.localPort (cjson.parse rewritten) ∧
      ∀ t, target driver (cjson.parse rewritten) = some t → t.Tunnelled uriHosts tunnel.localPort
  released : ∀ failure, opened = .error failure →
    w'.tunnels = w.tunnels ∧ w'.core.manager = w.core.manager

/-- Whatever the drivers, the SSH server and the allocations do, a DSN is kept to its tunnel. -/
def NeverBypassed (cjson : CJson) (uriHosts : Text → List (Text × ℕ)) (driver dsn : Text) : Prop :=
  ∀ (σ : Type) (env : Env σ) (layer : SshLayer σ) (w : TunnelWorld σ),
    KeptToTunnel cjson uriHosts driver w ((connManagerOpen cjson env layer driver dsn).run w).2
      ((connManagerOpen cjson env layer driver dsn).run w).1

/-- No second member hides behind the ones that are deleted, and no MongoDB URI names a server; or the
DSN names an instance and is refused. -/
def Redirectable (uriHosts : Text → List (Text × ℕ)) (driver : Text)
    (members : List (Text × Json)) : Prop :=
  strField (some (.obj members)) "instance" ≠ none ∨
    (∀ v ∈ (laterItems members "host").head?, v = .str loopback) ∧
      laterItems members "port" = [] ∧ laterItems members "socket" = [] ∧
      (driver = "mongodb".toList → ∀ uri, strField (some (.obj members)) "uri" = some uri →
        uriHosts uri = [])

theorem strField_loopbackMembers {localPort : ℕ} {key : String} (hhost : "host".toList ≠ key.toList)
    (hport : "port".toList ≠ key.toList) (hsocket : "socket".toList ≠ key.toList) :
    strField (some (.obj (loopbackMembers localPort members))) key =
      strField (some (.obj members)) key := by
  rw [strField, strField, other_loopbackMembers hhost hport hsocket]

/-- What reaches the driver in an opening through a tunnel. -/
theorem connManagerOpen_passed (hdsn : cjson.parse dsn = some (.obj members))
    (hssh : sshConfigParse (fun _ ↦ false) (some (.obj members)) = .ok (some cfg))
    {w : TunnelWorld σ} {id : ℕ}
    (h : ((connManagerOpen cjson env layer driver dsn).run w).1 = .ok id) :
    let w' := ((connManagerOpen cjson env layer driver dsn).run w).2
    strField (some (.obj members)) "instance" = none ∧ ∃ tunnel : Tunnel,
      1 ≤ tunnel.localPort ∧ tunnel.localPort ≤ 65535 ∧ tunnel ∈ w'.tunnels ∧
        w'.passed = (some tunnel, (Json.obj (loopbackMembers tunnel.localPort members)).print
          cjson.printNumber) :: w.passed := by
  have hopen : Triple (At w.tunnels w.core.manager w.passed)
      (connManagerOpen cjson env layer driver dsn) fun opened w' ↦ ∀ id, opened = .ok id →
        strField (some (.obj members)) "instance" = none ∧ ∃ tunnel : Tunnel,
          1 ≤ tunnel.localPort ∧ tunnel.localPort ≤ 65535 ∧ tunnel ∈ w'.tunnels ∧
            w'.passed = (some tunnel, (Json.obj (loopbackMembers tunnel.localPort members)).print
              cjson.printNumber) :: w.passed := by
    apply Triple.bind openTunnel_at
    intro r
    match r with
    | .error failure => exact .pure fun _ _ ↦ nofun
    | .ok (none, effectiveDsn) =>
      refine ⟨fun u hu ↦ ?_⟩
      obtain ⟨-, -, fails, hdirect⟩ := hu
      rw [hdsn] at hdirect
      rw [sshConfigParse_direct hdirect] at hssh
      cases hssh
    | .ok (some tunnel, rewritten) =>
      refine ⟨fun u hu id hid ↦ ?_⟩
      obtain ⟨hat, hsupported, noMemory, hrewrite⟩ := hu
      obtain ⟨hpos, hmax, rfl⟩ := dsnRewriteLoopback_eq_some hdsn hrewrite
      have hthrough := (@connectThrough_at _ env layer w.tunnels _ w.passed driver
        ((Json.obj (loopbackMembers tunnel.localPort members)).print cjson.printNumber)
        (some tunnel)).run u hat
      simp only [hid] at hthrough
      have hinstance : strField (some (.obj members)) "instance" = none := by
        rw [hdsn, dsnTunnelUnsupported] at hsupported
        split_ifs at hsupported with hnamed
        simpa using hnamed
      exact ⟨hinstance, tunnel, hpos, hmax, hthrough.1 ▸ List.mem_cons_self, hthrough.2⟩
  exact hopen.run w ⟨rfl, rfl, rfl⟩ id h

/-- An SSH server whose forwards all listen on one port, and memory enough. -/
def listening (localPort : ℕ) : SshLayer Records where
  sshOpen _ s := (.ok localPort, s)
  fails _ _ := false

def noTunnels : TunnelWorld Records := ⟨⟨fun _ ↦ none, .new, 0, []⟩, [], 0, fun _ ↦ none, []⟩

/-- Nothing fails: the driver is passed the rewritten DSN. -/
theorem connManagerOpen_listening (driver : Text) {localPort : ℕ} (hpos : 1 ≤ localPort) (hmax : localPort ≤ 65535)
    (hdsn : cjson.parse dsn = some (.obj members))
    (hssh : sshConfigParse (fun _ ↦ false) (some (.obj members)) = .ok (some cfg))
    (hinstance : strField (some (.obj members)) "instance" = none) :
    let r := (connManagerOpen cjson (tableEnv fun _ ↦ none) (listening localPort) driver dsn).run
      noTunnels
    r.1 = .ok 1 ∧ r.2.passed = [(some ⟨0, localPort⟩,
      (Json.obj (loopbackMembers localPort members)).print cjson.printNumber)] := by
  have hrewrite : dsnRewriteLoopback cjson false dsn localPort =
      some ((Json.obj (loopbackMembers localPort members)).print cjson.printNumber) := by
    have hrange : ¬ (localPort < 1 ∨ 65535 < localPort) := by omega
    simp only [dsnRewriteLoopback, if_neg hrange, hdsn, if_neg Bool.false_ne_true]
  have hunsupported : dsnTunnelUnsupported (cjson.parse dsn) = none := by
    simp [dsnTunnelUnsupported, hdsn, hinstance]
  rw [← hdsn] at hssh
  have hparse : sshConfigParse (fun a ↦ (listening localPort).fails a noTunnels.core.drivers)
      (cjson.parse dsn) = .ok (some cfg) := hssh
  have hopen : (openTunnel cjson (listening localPort) dsn).run noTunnels =
      (.ok (some ⟨0, localPort⟩,
          (Json.obj (loopbackMembers localPort members)).print cjson.printNumber),
        { noTunnels with fresh := 1, tunnels := [⟨0, localPort⟩] }) := by
    rw [openTunnel]
    simp only [StateT.run_bind, StateT.run_get, pure_bind, hparse, hunsupported]
    simp [StateT.run, bind, StateT.bind, sshTunnelOpen, failing, listening, hrewrite, noTunnels, pure]
    rfl
  rw [connManagerOpen]
  simp only [StateT.run_bind, hopen]
  exact ⟨rfl, rfl⟩

/-- With the forward on two ports in turn, what is not redirected shows. -/
theorem redirectable_of_neverBypassed (hdsn : cjson.parse dsn = some (.obj members))
    (hssh : sshConfigParse (fun _ ↦ false) (some (.obj members)) = .ok (some cfg))
    (hprint : cjson.PrintsBack members) (h : NeverBypassed cjson uriHosts driver dsn) :
    Redirectable uriHosts driver members := by
  by_cases hinstance : strField (some (.obj members)) "instance" = none
  swap
  · exact .inl hinstance
  have hlisten (localPort : ℕ) (hpos : 1 ≤ localPort) (hmax : localPort ≤ 65535) :
      let root := some (Json.obj (loopbackMembers localPort members))
      PointsAt localPort root ∧
        ∀ t, target driver root = some t → t.Tunnelled uriHosts localPort := by
    obtain ⟨hopened, hpassed⟩ := connManagerOpen_listening driver hpos hmax hdsn hssh hinstance
    obtain ⟨tunnel, rewritten, hpassed', -, hpoints, htarget⟩ := (h _ _ _ _).redirected 1 hopened
    rw [hpassed] at hpassed'
    cases hpassed'
    rw [hprint.rewritten hmax] at hpoints htarget
    exact ⟨hpoints, htarget⟩
  obtain ⟨hone, htargetOne⟩ := hlisten 1 le_rfl (by norm_num)
  obtain ⟨htwo, htargetTwo⟩ := hlisten 2 (by norm_num) (by norm_num)
  obtain ⟨hhost, hportOne, hsocket⟩ := pointsAt_loopbackMembers_iff.mp hone
  obtain ⟨-, hportTwo, -⟩ := pointsAt_loopbackMembers_iff.mp htwo
  refine .inr ⟨hhost, ?_, hsocket, ?_⟩
  · rw [← List.head?_eq_none_iff]
    cases hhead : (laterItems members "port").head? with
    | none => rfl
    | some v =>
      have hsame := (hportOne v hhead).symm.trans (hportTwo v hhead)
      norm_num at hsame
  · intro hmongodb uri huri
    have hfield (localPort : ℕ) : target driver
        (some (.obj (loopbackMembers localPort members))) = some (.uri uri) := by
      have hrest : strField (some (.obj (loopbackMembers localPort members))) "uri" = some uri :=
        (strField_loopbackMembers (by decide) (by decide) (by decide)).trans huri
      subst hmongodb
      simp [target, mongodbTarget, hrest]
    rw [List.eq_nil_iff_forall_not_mem]
    intro server hserver
    have hsame := (htargetOne _ (hfield 1) server hserver).symm.trans
      (htargetTwo _ (hfield 2) server hserver)
    simp at hsame

theorem neverBypassed_of_redirectable (hdsn : cjson.parse dsn = some (.obj members))
    (hssh : sshConfigParse (fun _ ↦ false) (some (.obj members)) = .ok (some cfg))
    (hprint : cjson.PrintsBack members) (h : Redirectable uriHosts driver members) :
    NeverBypassed cjson uriHosts driver dsn := by
  intro σ env layer w
  refine ⟨fun id hid ↦ ?_, fun failure hfailure ↦ connManagerOpen_released hfailure⟩
  obtain ⟨hinstance, tunnel, hpos, hmax, hmem, hpassed⟩ := connManagerOpen_passed hdsn hssh hid
  obtain ⟨hhost, hport, hsocket, huri⟩ := h.resolve_left (not_not_intro hinstance)
  have hpoints : PointsAt tunnel.localPort
      (some (.obj (loopbackMembers tunnel.localPort members))) :=
    pointsAt_loopbackMembers_iff.mpr ⟨hhost, by simp [hport], hsocket⟩
  refine ⟨tunnel, _, hpassed, hmem, ?_, ?_⟩
  · rw [hprint.rewritten hmax]
    exact hpoints
  · rw [hprint.rewritten hmax]
    intro t ht
    refine hpoints.tunnelled hpos hmax ?_ ?_ ht
    · exact (strField_loopbackMembers (by decide) (by decide) (by decide)).trans hinstance
    · intro hmongodb uri hfield
      exact huri hmongodb uri
        ((strField_loopbackMembers (by decide) (by decide) (by decide)).symm.trans hfield)

/-! ## A DSN read and printed -/

/-- cJSON on texts whose numbers are whole. -/
def wholeJson : CJson := ⟨Json.read, fun value ↦ Nat.toDigits 10 value.num.toNat⟩

theorem written_natCast (n : ℕ) : Json.Written wholeJson.printNumber n :=
  ⟨Json.isNumber_toDigits n, Json.numberValue_toDigits n⟩

/-- Objects of strings are printed back. -/
theorem wholeJson_printsBack {members : List (Text × Json)} (h : ∀ m ∈ members, m.2.isStr = true) :
    wholeJson.PrintsBack members := by
  intro members' hmembers
  apply Json.read_print
  apply Json.allMembers_of_forall
  intro m hm
  rcases hmembers m hm with hold | rfl | ⟨port, hport, rfl⟩
  · have hstr := h m hold
    cases hvalue : m.2 with
    | str s => trivial
    | _ => simp [hvalue, Json.isStr] at hstr
  · trivial
  · exact written_natCast port

theorem wholeJson_parse_print {members : List (Text × Json)} (h : ∀ m ∈ members, m.2.isStr = true) :
    wholeJson.parse ((Json.obj members).print wholeJson.printNumber) = some (.obj members) :=
  wholeJson_printsBack h members fun _ hm ↦ .inl hm

/-! ## The result -/

/-- A DSN that asks for a tunnel is kept to it exactly when no second host, port or socket hides behind
the first one, and on MongoDB no URI goes before the host. -/
theorem neverBypassed_iff (hdsn : cjson.parse dsn = some (.obj members))
    (hssh : sshConfigParse (fun _ ↦ false) (some (.obj members)) = .ok (some cfg))
    (hprint : cjson.PrintsBack members) :
    NeverBypassed cjson uriHosts driver dsn ↔ Redirectable uriHosts driver members :=
  ⟨redirectable_of_neverBypassed hdsn hssh hprint, neverBypassed_of_redirectable hdsn hssh hprint⟩

/-- A DSN for a tunnel to the server `db`. -/
def tunnelMembers : List (Text × Json) :=
  [("ssh_host".toList, .str "bastion".toList), ("ssh_user".toList, .str "ana".toList),
    ("host".toList, .str "db".toList), ("port".toList, .str "5432".toList)]

theorem neverBypassed_iff_oneHost :
    NeverBypassed wholeJson (fun _ ↦ []) "postgres".toList
        ((Json.obj tunnelMembers).print wholeJson.printNumber) ↔
      Redirectable (fun _ ↦ []) "postgres".toList tunnelMembers :=
  neverBypassed_iff (wholeJson_parse_print (by decide)) rfl (wholeJson_printsBack (by decide))

/-- The same with a second host. -/
def twoHosts : List (Text × Json) := tunnelMembers ++ [("host".toList, .str "other".toList)]

/-- The same with a URI. -/
def hostAndUri : List (Text × Json) := tunnelMembers ++ [("uri".toList, .str "mongodb://other".toList)]

/-- The driver is sent to the second host, and the MongoDB driver to the servers of the URI. -/
theorem twoHosts_bypasses :
    (∃ cfg, sshConfigParse (fun _ ↦ false) (some (.obj twoHosts)) = .ok (some cfg)) ∧
      ¬ NeverBypassed wholeJson (fun _ ↦ []) "postgres".toList
        ((Json.obj twoHosts).print wholeJson.printNumber) ∧
      (∃ cfg, sshConfigParse (fun _ ↦ false) (some (.obj hostAndUri)) = .ok (some cfg)) ∧
      ¬ NeverBypassed wholeJson (fun _ ↦ [("other".toList, 27017)]) "mongodb".toList
        ((Json.obj hostAndUri).print wholeJson.printNumber) := by
  refine ⟨⟨_, rfl⟩, fun h ↦ ?_, ⟨_, rfl⟩, fun h ↦ ?_⟩
  · have hredirectable := redirectable_of_neverBypassed (wholeJson_parse_print (by decide)) rfl
      (wholeJson_printsBack (by decide)) h
    obtain hinstance | ⟨hhost, -⟩ := hredirectable
    · exact hinstance rfl
    · exact absurd (Json.str.inj (hhost _ rfl)) (by decide)
  · have hredirectable := redirectable_of_neverBypassed (wholeJson_parse_print (by decide)) rfl
      (wholeJson_printsBack (by decide)) h
    obtain hinstance | ⟨-, -, -, huri⟩ := hredirectable
    · exact hinstance rfl
    · exact absurd (huri rfl _ rfl) (List.cons_ne_nil _ _)

end Squaero.Conn
