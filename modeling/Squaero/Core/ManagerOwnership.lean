import Squaero.Core.Ownership

/-!
# Ownership through the connection manager

The manager moves a cursor between a slot and a call, and frees it before the connection goes. While
it does, its slots and the history of the world differ for a moment: `Becoming` says which manager
the history already fits.
-/

namespace Squaero.Core

open Squaero.Lib Squaero.Lib.Ledger

variable {σ : Type} {env : Env σ}

/-- The manager is `mgr`, and the history fits the manager `mgr'` it is about to become. -/
def Becoming (mgr mgr' : Manager) (w : World σ) : Prop := w.manager = mgr ∧ Keeps mgr' w

section Manager

variable {mgr mgr' : Manager} {id i : ℕ} {s t : Slot} {r : ResultId} {dr inflight : Option ResultId}
  {past : List Event}

theorem getManager_spec {P : World σ → Prop} (h : ∀ w, P w → w.manager = mgr) :
    Triple P getManager fun m w ↦ mgr = m ∧ P w :=
  ⟨fun w hw ↦ ⟨(h w hw).symm, hw⟩⟩

theorem setManager_spec {P : World σ → Prop} {Q : Unit → World σ → Prop}
    (h : ∀ w, P w → Q () { w with manager := mgr }) : Triple P (setManager mgr) Q :=
  ⟨h⟩

/-- The manager changes to the one the history fits. -/
theorem becoming_setManager :
    Triple (Becoming mgr mgr') (setManager mgr' : CoreM σ Unit) fun _ ↦ Becoming mgr' mgr' :=
  setManager_spec fun _ hw ↦ ⟨rfl, hw.2.holding, hw.2.below⟩

theorem becoming_self {w : World σ} (hw : Consistent w) : Becoming w.manager w.manager w := ⟨rfl, hw⟩

theorem connManagerGet_spec {P : World σ → Prop} (h : ∀ w, P w → w.manager = mgr) :
    Triple P (connManagerGet id)
      fun ref w ↦ (mgr.findSlot id).map (fun r ↦ (r.2.driver, r.2.handle)) = ref ∧ P w := by
  apply Triple.bind (getManager_spec h)
  intro m
  apply Triple.of_imp
  rintro rfl
  exact .pure fun w hw ↦ ⟨rfl, hw⟩

theorem Becoming.consistent {w : World σ} (hw : Becoming mgr mgr w) : Consistent w := by
  rw [Consistent, hw.1]
  exact hw.2

theorem Working.becoming {handle : Handle} {w : World σ}
    (hw : Working mgr handle past dr none w) : Becoming mgr mgr w :=
  ⟨hw.manager, hw.holding, hw.below⟩

theorem Keeps.perm {w : World σ} (hw : Keeps mgr w) (hperm : mgr.holders.Perm mgr'.holders) :
    Keeps mgr' w := ⟨hw.holding.perm hperm, hw.below⟩

/-- A slot may change in what does not concern its connection and cursor. -/
theorem Keeps.setSlot {w : World σ} (hw : Keeps mgr w) (hslot : mgr.slots[i]? = some (some s))
    (ht : Manager.slotHolder t = Manager.slotHolder s) : Keeps (mgr.setSlot i (some t)) w := by
  obtain ⟨others, hholders, hset⟩ := Manager.holders_setSlot hslot
  refine hw.perm (hholders.trans ((hset (some t)).trans ?_).symm)
  rw [Option.toList_some, List.map_singleton, ht]
  rfl

/-- The cursor of a slot is taken out of the table. -/
theorem holding_take {history : List Event} (h : Holding mgr.holders none history)
    (hslot : mgr.slots[i]? = some (some s)) :
    Holding (mgr.setSlot i (some { s with cursor := none })).holders s.cursor history := by
  obtain ⟨others, hholders, hset⟩ := Manager.holders_setSlot hslot
  have hslot' := h.perm hholders
  refine Holding.perm ?_ (hset (some { s with cursor := none })).symm
  rw [Option.toList_some, List.map_singleton, Manager.slotHolder] at hslot' ⊢
  cases hcursor : s.cursor with
  | none =>
    rw [hcursor] at hslot'
    exact hslot'
  | some r =>
    rw [hcursor] at hslot'
    exact hslot'.take

/-- A result in flight is put into the slot of its connection. -/
theorem holding_put {history : List Event} (h : Holding mgr.holders (some r) history)
    (hslot : mgr.slots[i]? = some (some s)) (hcursor : s.cursor = none)
    (howner : OwnedBy history s.handle r) :
    Holding (mgr.setSlot i (some { s with cursor := some r })).holders none history := by
  obtain ⟨others, hholders, hset⟩ := Manager.holders_setSlot hslot
  have hslot' := h.perm hholders
  refine Holding.perm ?_ (hset (some { s with cursor := some r })).symm
  rw [Option.toList_some, List.map_singleton, Manager.slotHolder] at hslot' ⊢
  rw [hcursor] at hslot'
  exact hslot'.put howner

/-- The cursor of a slot is freed; `R` is what else is known of the history. -/
theorem freeOther_spec {R : List Event → Prop} (hslot : mgr.slots[i]? = some (some s))
    (hR : ∀ r history, R history → R (.release r :: history)) :
    Triple (fun w ↦ Becoming mgr mgr w ∧ R w.history) (freeOther env s.driver none s.cursor)
      fun _ w ↦ Becoming mgr (mgr.setSlot i (some { s with cursor := none })) w ∧
        R w.history := by
  cases hcursor : s.cursor with
  | none =>
    refine .pure fun w hw ↦ ⟨⟨hw.1.1, hw.1.2.setSlot hslot ?_⟩, hw.2⟩
    rw [Manager.slotHolder, Manager.slotHolder, hcursor]
  | some r =>
    rw [freeOther]
    apply Triple.ite
    · intro hother
      apply perform_spec
      intro w hw answer drivers
      have htake := holding_take hw.1.2.holding hslot
      rw [hcursor] at htake
      exact ⟨⟨hw.1.1, htake.release, hw.1.2.below.cons (by simp) (by simp)⟩, hR r _ hw.2⟩
    · intro hsame
      exact absurd (by simp) hsame

/-- The cursor goes first, then the connection, then the slot. -/
theorem releaseSlot_spec (hslot : mgr.slots[i]? = some (some s)) :
    Triple (Becoming mgr mgr) (releaseSlot env i s)
      fun _ ↦ Becoming (mgr.setSlot i none) (mgr.setSlot i none) := by
  let mgr' := mgr.setSlot i (some { s with cursor := none })
  have hslot' : mgr'.slots[i]? = some (some { s with cursor := none }) :=
    List.getElem?_set_self (List.getElem?_eq_some_iff.1 hslot).1
  have hfree := @freeOther_spec _ env _ _ _ (fun _ ↦ True) hslot fun _ _ _ ↦ trivial
  apply Triple.bind ((hfree.pre fun w hw ↦ ⟨hw, trivial⟩).post fun _ w hw ↦ hw.1)
  intro _
  apply Triple.bind (getManager_spec fun w hw ↦ hw.1)
  intro m
  apply Triple.of_imp
  rintro rfl
  apply Triple.bind becoming_setManager
  intro _
  apply Triple.bind (Q := fun _ ↦ Becoming mgr' (mgr.setSlot i none))
  · apply perform_spec
    intro w hw answer drivers
    obtain ⟨others, hholders, hset⟩ := Manager.holders_setSlot hslot'
    obtain ⟨hothers, hopen, hother⟩ := (hw.2.holding.perm hholders).leave
    refine ⟨hw.1, (hothers.dispose hopen hother).perm ?_, hw.2.below.cons (by simp) (by simp)⟩
    rw [← Manager.setSlot_setSlot (some { s with cursor := none })]
    exact (hset none).symm
  intro _
  apply Triple.bind (getManager_spec fun w hw ↦ hw.1)
  intro m
  apply Triple.of_imp
  rintro rfl
  rw [Manager.setSlot_setSlot]
  exact becoming_setManager

theorem releaseAll_spec {before after : List (Option Slot)} (hslots : mgr.slots = before ++ after) :
    Triple (Becoming mgr mgr) (releaseAll env before.length after)
      fun _ w ↦ Consistent w ∧ w.manager.live = before.reduceOption := by
  induction after generalizing before mgr with
  | nil =>
    refine .pure fun w hw ↦ ⟨hw.consistent, ?_⟩
    rw [hw.1, Manager.live, hslots, List.append_nil]
  | cons x after ih =>
    have hnext (m : Manager) (hm : m.slots = before ++ none :: after) :
        Triple (Becoming m m) (releaseAll env (before.length + 1) after)
          fun _ w ↦ Consistent w ∧ w.manager.live = before.reduceOption := by
      have hm' : m.slots = (before ++ [none]) ++ after := by
        rw [hm, List.append_assoc, List.singleton_append]
      have hstep := ih hm'
      rw [List.length_append, List.length_singleton, List.reduceOption_append] at hstep
      simpa using hstep
    cases x with
    | none => exact hnext mgr hslots
    | some s =>
      have hslot : mgr.slots[before.length]? = some (some s) := by
        rw [hslots, List.getElem?_append_right le_rfl, Nat.sub_self]
        rfl
      apply Triple.bind (releaseSlot_spec hslot)
      intro _
      apply hnext
      rw [Manager.setSlot, hslots, List.set_append_right _ _ le_rfl, Nat.sub_self]
      rfl

/-- When the manager is freed nothing is live any more. -/
theorem connManagerFree_spec :
    Triple Consistent (connManagerFree env) fun _ w ↦ Consistent w ∧ w.manager = .new := by
  refine ⟨fun w hw ↦ ?_⟩
  have hfree : Triple (Becoming w.manager w.manager) (connManagerFree env)
      fun _ w ↦ Consistent w ∧ w.manager = .new := by
    apply Triple.bind (getManager_spec fun w hw ↦ hw.1)
    intro m
    apply Triple.of_imp
    rintro rfl
    apply Triple.bind (releaseAll_spec (List.nil_append _).symm)
    intro _
    apply setManager_spec
    rintro w ⟨hw, hlive⟩
    have hholders : w.manager.holders.Perm Manager.new.holders := by
      rw [Manager.holders, hlive]
      rfl
    exact ⟨⟨hw.holding.perm hholders, hw.below⟩, rfl⟩
  exact hfree.run w (becoming_self hw)

theorem connManagerClose_spec :
    Triple Consistent (connManagerClose env id) fun _ ↦ Consistent := by
  refine ⟨fun w hw ↦ ?_⟩
  have hclose : Triple (Becoming w.manager w.manager) (connManagerClose env id)
      fun _ ↦ Consistent := by
    apply Triple.bind (getManager_spec fun w hw ↦ hw.1)
    intro m
    apply Triple.of_imp
    rintro rfl
    cases hfind : w.manager.findSlot id with
    | none => exact .pure fun w hw ↦ hw.consistent
    | some found =>
      apply Triple.bind (releaseSlot_spec (Manager.findSlot_eq_some hfind).1)
      intro _
      exact .pure fun w hw ↦ hw.consistent
  exact hclose.run w (becoming_self hw)

theorem setInTx_spec {isOpen : Bool} :
    Triple Consistent (setInTx id isOpen : CoreM σ Bool) fun _ ↦ Consistent := by
  refine ⟨fun w hw ↦ ?_⟩
  have hset : Triple (Becoming w.manager w.manager) (setInTx id isOpen : CoreM σ Bool)
      fun _ ↦ Consistent := by
    apply Triple.bind (getManager_spec fun w hw ↦ hw.1)
    intro m
    apply Triple.of_imp
    rintro rfl
    cases hfind : w.manager.findSlot id with
    | none => exact .pure fun w hw ↦ hw.consistent
    | some found =>
      apply Triple.thenReturn
      apply setManager_spec
      intro v hv
      have hkeeps : Keeps (w.manager.setSlot found.1 (some { found.2 with inTx := isOpen })) v :=
        hv.2.setSlot (Manager.findSlot_eq_some hfind).1 rfl
      exact ⟨hkeeps.holding, hkeeps.below⟩
  exact hset.run w (becoming_self hw)

/-! ## The cursor of a connection -/

/-- A call that read since `past` is over; `isHeld` says whether what it read is now the cursor of
the connection `id`. -/
def Settled (past : List Event) (id : ℕ) (isHeld : Bool) (w : World σ) : Prop :=
  Consistent w ∧ ∃ dr, Reads past dr w.history ∧
    (isHeld = true ↔ ∃ r ∈ dr, w.manager.cursorOf id = some r)

theorem Working.settled {handle : Handle} {w : World σ}
    (hw : Working mgr handle past dr none w) : Settled past id false w := by
  refine ⟨hw.becoming.consistent, dr, hw.reads, iff_of_false Bool.false_ne_true ?_⟩
  rintro ⟨r, hr, hcursor⟩
  rw [hw.manager] at hcursor
  exact hw.not_held r hr (Manager.mem_cursors hcursor)

/-- A call begins on the connection of a slot. -/
theorem Becoming.working {w : World σ} (hw : Becoming mgr mgr w) (hreads : Reads past none w.history)
    (hslot : mgr.slots[i]? = some (some s)) : Working mgr s.handle past none none w where
  manager := hw.1
  holding := hw.2.holding
  below := hw.2.below
  handle_mem := List.mem_map_of_mem (Manager.slotHolder_mem hslot)
  reads := hreads
  not_held r hr := by simp at hr
  ownedBy r hr := by simp at hr

theorem setSlot_slot {x : Option Slot} (hslot : mgr.slots[i]? = some (some s)) :
    (mgr.setSlot i x).slots[i]? = some x :=
  List.getElem?_set_self (List.getElem?_eq_some_iff.1 hslot).1

/-- Before a cursor run the connection drops the cursor it has. -/
theorem setCursor_none_spec (hfind : mgr.findSlot id = some (i, s)) :
    Triple (fun w ↦ Becoming mgr mgr w ∧ Reads past none w.history) (setCursor env id none)
      fun _ ↦ Working (mgr.setSlot i (some { s with cursor := none })) s.handle past none none := by
  have hslot := (Manager.findSlot_eq_some hfind).1
  apply Triple.bind (getManager_spec fun w hw ↦ hw.1.1)
  intro m
  apply Triple.of_imp
  rintro rfl
  rw [hfind]
  apply Triple.bind (freeOther_spec hslot fun r history hreads ↦ hreads.cons (by simp))
  intro _
  apply Triple.bind (getManager_spec fun w hw ↦ hw.1.1)
  intro m
  apply Triple.of_imp
  rintro rfl
  apply Triple.thenReturn
  apply setManager_spec
  intro w hw
  have hbecome : Becoming (mgr.setSlot i (some { s with cursor := none }))
      (mgr.setSlot i (some { s with cursor := none }))
      { w with manager := mgr.setSlot i (some { s with cursor := none }) } :=
    ⟨rfl, hw.1.2.holding, hw.1.2.below⟩
  have hworking := hbecome.working hw.2 (setSlot_slot hslot)
  exact hworking

theorem setCursor_some_spec (hfind : mgr.findSlot id = some (i, s)) (hcursor : s.cursor = none) :
    Triple (fun w ↦ ∃ dr, Working mgr s.handle past dr (some r) w ∧ r ∈ dr)
      (setCursor env id (some r))
      fun isHeld w ↦ isHeld = true ∧ Settled past id true w := by
  obtain ⟨hslot, hid, hset⟩ := Manager.findSlot_eq_some hfind
  refine .exists_pre fun dr ↦ ?_
  apply Triple.bind (getManager_spec fun w hw ↦ hw.1.manager)
  intro m
  apply Triple.of_imp
  rintro rfl
  rw [hfind]
  simp only [hcursor, freeOther, pure_bind]
  apply Triple.bind (getManager_spec fun w hw ↦ hw.1.manager)
  intro m
  apply Triple.of_imp
  rintro rfl
  apply Triple.thenReturn
  apply setManager_spec
  rintro w ⟨hw, hr⟩
  refine ⟨rfl, ⟨holding_put hw.holding hslot hcursor (hw.ownedBy r rfl), hw.below⟩, dr, hw.reads,
    iff_of_true rfl ⟨r, hr, ?_⟩⟩
  have hafter := hset { s with cursor := some r } hid
  rw [Manager.cursorOf, hafter]
  rfl

theorem takeCursor_spec (hfind : mgr.findSlot id = some (i, s)) :
    Triple (fun w ↦ Becoming mgr mgr w ∧ Reads past none w.history)
      (takeCursor id : CoreM σ (Option ResultId))
      fun cursor w ↦ cursor = s.cursor ∧
        Working (mgr.setSlot i (some { s with cursor := none })) s.handle past none cursor w := by
  have hslot := (Manager.findSlot_eq_some hfind).1
  apply Triple.bind (getManager_spec fun w hw ↦ hw.1.1)
  intro m
  apply Triple.of_imp
  rintro rfl
  rw [hfind]
  apply Triple.thenReturn
  apply setManager_spec
  rintro w ⟨hw, hreads⟩
  refine ⟨rfl, ?_⟩
  exact
    { manager := rfl
      holding := holding_take hw.2.holding hslot
      below := hw.2.below
      handle_mem := List.mem_map_of_mem (Manager.slotHolder_mem (setSlot_slot hslot))
      reads := hreads
      not_held := fun r hr ↦ by simp at hr
      ownedBy := fun r hr ↦ by
        have hmem := Manager.slotHolder_mem hslot
        rw [Manager.slotHolder, Option.mem_def.1 hr] at hmem
        exact hw.2.holding.ownedBy s.handle r hmem }

/-! ## Opening a connection -/

/-- The connection `handle` is open and has no slot yet. -/
def Outside (handle : Handle) (w : World σ) : Prop :=
  Consistent w ∧ Open w.history handle ∧ handle ∉ w.manager.holders.map Prod.fst

theorem connect_spec {driver dsn : Text} {handle : Handle} :
    Triple (fun w ↦ Consistent w ∧ .open handle ∉ w.history ∧ handle < w.fresh)
      (perform env driver (.connect dsn handle))
      fun answer w ↦ if answer.2 then Outside handle w else Consistent w := by
  apply perform_spec
  rintro w ⟨hw, hnew, hlt⟩ ⟨st, given⟩ drivers
  cases given with
  | false => exact ⟨hw.holding, hw.below⟩
  | true =>
    have hopened := hw.holding.open hnew
    have hdisposed : .dispose handle ∉ w.history := fun hmem ↦
      hnew (opened_of_dispose_mem hw.holding.accepted hmem)
    refine ⟨⟨hopened, hw.below.cons (by simp) fun h heq ↦ ?_⟩, ⟨.head _, ?_⟩, fun hmem ↦ ?_⟩
    · cases heq
      exact hlt
    · simpa [Call.events] using hdisposed
    · obtain ⟨holder, hholder, rfl⟩ := List.mem_map.1 hmem
      exact hnew (hw.holding.isOpen holder hholder).1

theorem disconnect_spec {driver : Text} {handle : Handle} :
    Triple (Outside handle) (perform env driver (.disconnect handle)) fun _ ↦ Consistent := by
  apply perform_spec
  rintro w ⟨hw, hopen, hother⟩ answer drivers
  exact ⟨hw.holding.dispose hopen hother, hw.below.cons (by simp) (by simp)⟩

theorem outside_lastError_spec {driver : Text} {handle : Handle} :
    Triple (Outside handle) (perform env driver (.lastError handle))
      fun _ ↦ Outside handle := by
  apply perform_spec
  rintro w ⟨hw, hopen, hother⟩ answer drivers
  exact ⟨⟨hw.holding.touch hopen, hw.below.cons (by simp) (by simp)⟩,
    ⟨.tail _ hopen.1, by simpa [Call.events] using hopen.2⟩, hother⟩

theorem connManagerOpen_spec {driver dsn : Text} :
    Triple Consistent (connManagerOpen env driver dsn) fun _ ↦ Consistent := by
  apply Triple.bind (Q := fun _ ↦ Consistent)
  · exact ⟨fun w hw ↦ ⟨hw.holding, hw.below⟩⟩
  intro tunnel
  cases tunnel with
  | error failure => exact .pure fun w hw ↦ hw
  | ok effectiveDsn =>
    apply Triple.bind (Q := fun handle w ↦
      Consistent w ∧ .open handle ∉ w.history ∧ handle < w.fresh)
    · exact ⟨fun w hw ↦ ⟨⟨hw.holding, hw.below.mono (Nat.le_succ _)⟩,
        fun hmem ↦ (hw.below.opened _ hmem).false, Nat.lt_succ_self _⟩⟩
    intro handle
    apply Triple.bind connect_spec
    rintro ⟨st, given⟩
    apply Triple.ite
    · intro hfailed
      cases given with
      | false => exact .pure fun w hw ↦ hw
      | true =>
        apply Triple.bind outside_lastError_spec
        intro msg
        apply Triple.bind disconnect_spec
        intro _
        exact .pure fun w hw ↦ hw
    intro hok
    cases given with
    | false => exact .pure fun w hw ↦ hw
    | true =>
      refine ⟨fun w hw ↦ ?_⟩
      obtain ⟨hw, hopen, hother⟩ := hw
      have hlive := Manager.acquire_live { w.manager with nextId := w.manager.nextId + 1 }
        ⟨w.manager.nextId, driver, handle, none, false⟩
      exact ⟨(hw.holding.join hopen hother).perm (hlive.map Manager.slotHolder).symm, hw.below⟩

end Manager

end Squaero.Core
