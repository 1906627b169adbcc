import Squaero.Core.Query
import Squaero.Lib.Holding
import Squaero.Lib.SlotTable

/-!
# Who owns a driver's result

The slots of the manager are a table of holders: each open connection with its cursor. `Consistent`
says that the live results of a world are the cursors of the table; `Working` says the same while one
call runs on a connection, with the result it has in its hands.
-/

namespace Squaero.Core

open Squaero.Lib Squaero.Lib.Ledger

variable {σ : Type} {env : Env σ}

/-! ## The table of the manager -/

namespace Manager

variable {mgr : Manager} {id i : ℕ} {s : Slot} {r : ResultId}

def slotHolder (s : Slot) : Holder Handle ResultId := (s.handle, s.cursor)

def holders (mgr : Manager) : List (Holder Handle ResultId) := mgr.live.map slotHolder

/-- The cursors the manager holds. -/
def cursors (mgr : Manager) : List ResultId := held mgr.holders

theorem live_eq_append {before after : List (Option Slot)} {x : Option Slot}
    (hslots : mgr.slots = before ++ x :: after) :
    mgr.live = before.reduceOption ++ (x.toList ++ after.reduceOption) := by
  rw [live, hslots, List.reduceOption_append]
  cases x <;> rfl

/-- The slots but one, and what replacing that one does to the slots in use. -/
theorem live_setSlot {y : Option Slot} (h : mgr.slots[i]? = some y) :
    ∃ others, mgr.live.Perm (y.toList ++ others) ∧
      ∀ x : Option Slot, (mgr.setSlot i x).live.Perm (x.toList ++ others) :=
  SlotTable.reduceOption_set h

theorem findIn_eq_some {slots : List (Option Slot)} (h : findIn id slots = some (i, s)) :
    slots[i]? = some (some s) ∧ s.id = id ∧
      ∀ t : Slot, t.id = id → findIn id (slots.set i (some t)) = some (i, t) := by
  induction slots generalizing i with
  | nil => cases h
  | cons x slots ih =>
    have hlater (hx : ∀ rest, findIn id (x :: rest) = (findIn id rest).map fun r ↦ (r.1 + 1, r.2)) :
        (x :: slots)[i]? = some (some s) ∧ s.id = id ∧
          ∀ t : Slot, t.id = id → findIn id ((x :: slots).set i (some t)) = some (i, t) := by
      rw [hx] at h
      obtain ⟨⟨j, t⟩, hfind, heq⟩ := Option.map_eq_some_iff.1 h
      cases heq
      obtain ⟨hslot, hid, hset⟩ := ih hfind
      refine ⟨hslot, hid, fun t ht ↦ ?_⟩
      rw [List.set_cons_succ, hx, hset t ht]
      rfl
    cases x with
    | none => exact hlater fun rest ↦ rfl
    | some t =>
      by_cases hid : t.id = id
      · rw [findIn, if_pos hid] at h
        cases h
        exact ⟨rfl, hid, fun u hu ↦ by rw [List.set_cons_zero, findIn, if_pos hu]⟩
      · exact hlater fun rest ↦ by rw [findIn, if_neg hid]

theorem findSlot_eq_some (h : mgr.findSlot id = some (i, s)) :
    mgr.slots[i]? = some (some s) ∧ s.id = id ∧
      ∀ t : Slot, t.id = id → (mgr.setSlot i (some t)).findSlot id = some (i, t) := by
  rw [findSlot] at h
  by_cases hzero : id = 0
  · rw [if_pos hzero] at h
    cases h
  · rw [if_neg hzero] at h
    obtain ⟨hslot, hid, hset⟩ := findIn_eq_some h
    refine ⟨hslot, hid, fun t ht ↦ ?_⟩
    rw [findSlot, if_neg hzero]
    exact hset t ht

theorem setSlot_setSlot (x y : Option Slot) : (mgr.setSlot i x).setSlot i y = mgr.setSlot i y := by
  simp only [setSlot, List.set_set]

theorem acquire_live (mgr : Manager) (s : Slot) : (mgr.acquire s).live.Perm (s :: mgr.live) := by
  rw [acquire]
  cases hfree : mgr.slots.idxOf? none with
  | some i =>
    obtain ⟨others, hlive, hset⟩ := live_setSlot (SlotTable.free_of_idxOf? hfree)
    exact (hset (some s)).trans (hlive.symm.cons s)
  | none =>
    refine List.Perm.trans (List.Perm.of_eq (live_eq_append rfl)) ?_
    rw [List.reduceOption_replicate_none, List.append_nil]
    exact List.perm_append_singleton _ _

theorem holders_setSlot {y : Option Slot} (h : mgr.slots[i]? = some y) :
    ∃ others, mgr.holders.Perm (y.toList.map slotHolder ++ others) ∧
      ∀ x : Option Slot, (mgr.setSlot i x).holders.Perm (x.toList.map slotHolder ++ others) := by
  obtain ⟨others, hlive, hset⟩ := live_setSlot h
  refine ⟨others.map slotHolder, ?_, fun x ↦ ?_⟩
  · rw [← List.map_append]
    exact hlive.map _
  · rw [← List.map_append]
    exact (hset x).map _

theorem slotHolder_mem (h : mgr.slots[i]? = some (some s)) : slotHolder s ∈ mgr.holders := by
  obtain ⟨others, hholders, -⟩ := holders_setSlot h
  exact hholders.mem_iff.2 (.head _)

theorem mem_cursors (h : mgr.cursorOf id = some r) : r ∈ mgr.cursors := by
  obtain ⟨⟨i, s⟩, hfind, hcursor⟩ := Option.bind_eq_some_iff.1 h
  have hmem := slotHolder_mem (findSlot_eq_some hfind).1
  rw [slotHolder, hcursor] at hmem
  exact mem_held.2 ⟨s.handle, hmem⟩

end Manager

/-! ## Worlds -/

/-- The numbers in a history were offered before `n`. -/
structure Below (n : ℕ) (history : List Event) : Prop where
  given : ∀ r, Given history r → r < n
  opened : ∀ h, .open h ∈ history → h < n

/-- The live results are the cursors of `mgr`. -/
structure Keeps (mgr : Manager) (w : World σ) : Prop where
  holding : Holding mgr.holders none w.history
  below : Below w.fresh w.history

/-- What holds of a world between calls. -/
def Consistent (w : World σ) : Prop := Keeps w.manager w

/-- What was read since `past`. -/
def Reads (past : List Event) (dr : Option ResultId) (history : List Event) : Prop :=
  ∃ calls, history = calls ++ past ∧ ∀ r, .use r ∈ calls ↔ r ∈ dr

/-- A call at work on the connection `handle`, with the manager as it is: since `past` it has read
`dr`, and `inflight` is the live result in its hands. -/
structure Working (mgr : Manager) (handle : Handle) (past : List Event)
    (dr inflight : Option ResultId) (w : World σ) : Prop where
  manager : w.manager = mgr
  holding : Holding mgr.holders inflight w.history
  below : Below w.fresh w.history
  handle_mem : handle ∈ mgr.holders.map Prod.fst
  reads : Reads past dr w.history
  not_held : ∀ r ∈ dr, r ∉ mgr.cursors
  ownedBy : ∀ r ∈ inflight, OwnedBy w.history handle r

section Events

variable {past history : List Event} {dr : Option ResultId} {n : ℕ} {e : Event} {r : ResultId}
  {h : Handle}

theorem Below.cons (hbelow : Below n history) (hgiven : ∀ h r, e = .acquire h r → r < n)
    (hopened : ∀ h, e = .open h → h < n) : Below n (e :: history) where
  given r hr := by
    rcases given_cons.1 hr with ⟨h, heq⟩ | hr
    · exact hgiven h r heq.symm
    · exact hbelow.given r hr
  opened h hh := by
    rcases List.mem_cons.1 hh with heq | hh
    · exact hopened h heq.symm
    · exact hbelow.opened h hh

theorem Below.mono (hbelow : Below n history) {m : ℕ} (hle : n ≤ m) : Below m history where
  given r hr := (hbelow.given r hr).trans_le hle
  opened h hh := (hbelow.opened h hh).trans_le hle

theorem Reads.refl (past : List Event) : Reads past none past := ⟨[], rfl, by simp⟩

theorem Reads.cons (hreads : Reads past dr history) (he : ∀ r, e ≠ .use r) :
    Reads past dr (e :: history) := by
  obtain ⟨calls, rfl, hcalls⟩ := hreads
  refine ⟨e :: calls, rfl, fun r ↦ ?_⟩
  rw [List.mem_cons, hcalls, or_iff_right (he r).symm]

theorem Reads.use (hreads : Reads past dr history) (hdr : ∀ s ∈ dr, s = r) :
    Reads past (some r) (.use r :: history) := by
  obtain ⟨calls, rfl, hcalls⟩ := hreads
  refine ⟨.use r :: calls, rfl, fun s ↦ ?_⟩
  rw [List.mem_cons, hcalls, Option.mem_some_iff, Event.use.injEq, eq_comm]
  exact or_iff_left_of_imp fun hs ↦ (hdr s hs).symm

end Events

namespace Working

variable {mgr : Manager} {handle : Handle} {past : List Event} {dr inflight : Option ResultId}
  {r : ResultId} {w : World σ}

theorem isOpen (h : Working mgr handle past dr inflight w) : Open w.history handle := by
  obtain ⟨holder, hmem, heq⟩ := List.mem_map.1 h.handle_mem
  rw [← heq]
  exact h.holding.isOpen holder hmem

theorem touch (h : Working mgr handle past dr inflight w) (drivers : σ) :
    Working mgr handle past dr inflight
      { w with drivers := drivers, history := .touch handle :: w.history } where
  manager := h.manager
  holding := h.holding.touch h.isOpen
  below := h.below.cons (by simp) (by simp)
  handle_mem := h.handle_mem
  reads := h.reads.cons (by simp)
  not_held := h.not_held
  ownedBy r hr := ownedBy_cons.2 (.inr (h.ownedBy r hr))

theorem use (h : Working mgr handle past dr (some r) w) (hdr : ∀ s ∈ dr, s = r) (drivers : σ) :
    Working mgr handle past (some r) (some r)
      { w with drivers := drivers, history := .use r :: w.history } where
  manager := h.manager
  holding := h.holding.use h.holding.live
  below := h.below.cons (by simp) (by simp)
  handle_mem := h.handle_mem
  reads := h.reads.use hdr
  not_held := h.holding.not_held
  ownedBy s hs := ownedBy_cons.2 (.inr (h.ownedBy s hs))

theorem release (h : Working mgr handle past dr (some r) w) (drivers : σ) :
    Working mgr handle past dr none
      { w with drivers := drivers, history := .release r :: w.history } where
  manager := h.manager
  holding := h.holding.release
  below := h.below.cons (by simp) (by simp)
  handle_mem := h.handle_mem
  reads := h.reads.cons (by simp)
  not_held := h.not_held
  ownedBy s hs := by simp at hs

/-- A result no one was given before, from an offer that this call made. -/
theorem acquire (h : Working mgr handle past dr none w) (hnew : ¬ Given w.history r)
    (hlt : r < w.fresh) (drivers : σ) :
    Working mgr handle past dr (some r)
      { w with drivers := drivers, history := .acquire handle r :: w.history } where
  manager := h.manager
  holding := h.holding.acquire h.isOpen hnew
  below := by
    refine h.below.cons (fun h s heq ↦ ?_) (by simp)
    cases heq
    exact hlt
  handle_mem := h.handle_mem
  reads := h.reads.cons (by simp)
  not_held := h.not_held
  ownedBy s hs := by
    cases Option.mem_some_iff.1 hs
    exact ownedBy_cons.2 (.inl rfl)

end Working

/-! ## Calls at work -/

theorem perform_spec {P : World σ → Prop} {α : Type} {Q : α → World σ → Prop} {driver : Text}
    {call : Call α}
    (h : ∀ w, P w → ∀ answer drivers,
      Q answer { w with drivers := drivers, history := call.events answer ++ w.history }) :
    Triple P (perform env driver call) Q :=
  ⟨fun w hw ↦ h w hw _ _⟩

section Calls

variable {mgr : Manager} {handle : Handle} {past : List Event} {dr : Option ResultId}
  {r : ResultId} {driver : Text} {maxRows offset fuel toSkip col count : ℕ} {keepOpen : Bool}
  {res : Result} {sql : Text}

/-- A result is read only while it is in the hands of the call. -/
theorem perform_use_spec {α : Type} {call : Call α}
    (hcall : ∀ answer, call.events answer = [.use r]) (hdr : ∀ s ∈ dr, s = r) :
    Triple (Working mgr handle past dr (some r)) (perform env driver call)
      fun _ ↦ Working mgr handle past (some r) (some r) := by
  apply perform_spec
  intro w hw answer drivers
  rw [hcall]
  exact hw.use hdr drivers

theorem perform_read_spec {α : Type} {call : Call α}
    (hcall : ∀ answer, call.events answer = [.use r]) :
    Triple (Working mgr handle past (some r) (some r)) (perform env driver call)
      fun _ ↦ Working mgr handle past (some r) (some r) :=
  perform_use_spec hcall fun _ hs ↦ (Option.mem_some_iff.1 hs).symm

theorem lastError_spec {inflight : Option ResultId} :
    Triple (Working mgr handle past dr inflight) (perform env driver (.lastError handle))
      fun _ ↦ Working mgr handle past dr inflight := by
  apply perform_spec
  intro w hw answer drivers
  exact hw.touch drivers

theorem freeResult_spec :
    Triple (Working mgr handle past dr (some r)) (perform env driver (.freeResult r))
      fun _ ↦ Working mgr handle past dr none := by
  apply perform_spec
  intro w hw answer drivers
  exact hw.release drivers

theorem readColumns_spec :
    Triple (Working mgr handle past (some r) (some r)) (readColumns env driver r col count)
      fun _ ↦ Working mgr handle past (some r) (some r) := by
  induction count generalizing col with
  | zero => exact .pure fun w hw ↦ hw
  | succ count ih =>
    apply Triple.bind (perform_read_spec fun _ ↦ rfl)
    intro name
    apply Triple.bind (perform_read_spec fun _ ↦ rfl)
    intro type
    apply Triple.bind ih
    intro columns
    exact .pure fun w hw ↦ hw

theorem readCells_spec :
    Triple (Working mgr handle past (some r) (some r)) (readCells env driver r col count)
      fun _ ↦ Working mgr handle past (some r) (some r) := by
  induction count generalizing col with
  | zero => exact .pure fun w hw ↦ hw
  | succ count ih =>
    apply Triple.bind (perform_read_spec fun _ ↦ rfl)
    intro cell
    apply Triple.bind ih
    intro cells
    exact .pure fun w hw ↦ hw

theorem fetchRows_spec :
    Triple (Working mgr handle past (some r) (some r))
      (fetchRows env driver r maxRows keepOpen fuel toSkip res)
      fun _ ↦ Working mgr handle past (some r) (some r) := by
  induction fuel generalizing toSkip res with
  | zero => exact .pure fun w hw ↦ hw
  | succ fuel ih =>
    apply Triple.ite
    · intro hfull
      exact .pure fun w hw ↦ hw
    intro hroom
    apply Triple.bind (perform_read_spec fun _ ↦ rfl)
    intro rc
    apply Triple.ite
    · intro hend
      exact .pure fun w hw ↦ hw
    intro hrow
    apply Triple.ite
    · intro hskip
      exact ih
    intro htake
    apply Triple.ite
    · intro hpeek
      exact .pure fun w hw ↦ hw
    intro hfits
    apply Triple.bind readCells_spec
    intro cells
    cases addRow res cells with
    | none => exact .pure fun w hw ↦ hw
    | some res => exact ih

theorem fetchPage_spec :
    Triple (Working mgr handle past (some r) (some r))
      (fetchPage env driver r maxRows offset keepOpen res)
      fun _ ↦ Working mgr handle past (some r) (some r) := by
  apply Triple.ite
  · intro hnone
    exact .pure fun w hw ↦ hw
  · intro hsome
    exact fetchRows_spec

/-- The result a call of `materialize` left open. -/
def leftOpen (dr : ResultId) (keepOpen : Bool) : Except (Status × Text) Result → Option ResultId
  | .ok res => if keepOpen && res.truncated then some dr else none
  | .error _ => none

/-- `materialize` reads the result it is given, and frees it unless it leaves it open. -/
theorem materialize_spec :
    Triple (Working mgr handle past none (some r))
      (materialize env driver handle r maxRows offset keepOpen)
      fun page ↦ Working mgr handle past (some r) (leftOpen r keepOpen page) := by
  apply Triple.bind (perform_use_spec (fun _ ↦ rfl) (by simp))
  intro colCount
  apply Triple.bind readColumns_spec
  intro columns
  apply Triple.bind (perform_read_spec fun _ ↦ rfl)
  intro rowsAffected
  apply Triple.bind fetchPage_spec
  intro fetched
  cases fetched with
  | none =>
    apply Triple.bind freeResult_spec
    intro _
    exact .pure fun w hw ↦ hw
  | some fetched =>
    apply Triple.ite
    · intro hfailed
      apply Triple.bind lastError_spec
      intro msg
      apply Triple.bind freeResult_spec
      intro _
      exact .pure fun w hw ↦ hw
    intro hok
    apply Triple.ite
    · intro hclosed
      apply Triple.bind freeResult_spec
      intro _
      refine .pure fun w hw ↦ ?_
      have hleft : (keepOpen && fetched.1.truncated) = false := by
        revert hclosed
        cases keepOpen <;> simp
      simp only [leftOpen, hleft, Bool.false_eq_true, if_false]
      exact hw
    · intro hopen
      refine .pure fun w hw ↦ ?_
      have hleft : (keepOpen && fetched.1.truncated) = true := by
        revert hopen
        cases keepOpen <;> simp
      simp only [leftOpen, hleft, if_true]
      exact hw

/-- The result a driver handed out, if the call keeps it. -/
def handedOut : Except (Status × Text) ResultId → Option ResultId
  | .ok dr => some dr
  | .error _ => none

theorem openResult_spec :
    Triple (Working mgr handle past none none) (openResult env driver handle sql)
      fun opened ↦ Working mgr handle past none (handedOut opened) := by
  apply Triple.bind (Q := fun r w ↦
    Working mgr handle past none none w ∧ ¬ Given w.history r ∧ r < w.fresh)
  · exact ⟨fun w hw ↦ ⟨{ hw with below := hw.below.mono (Nat.le_succ _) },
      fun hgiven ↦ (hw.below.given _ hgiven).false, Nat.lt_succ_self _⟩⟩
  intro r
  apply Triple.bind (Q := fun answer ↦
    Working mgr handle past none (if answer.2 then some r else none))
  · apply perform_spec
    rintro w ⟨hw, hnew, hlt⟩ ⟨st, given⟩ drivers
    cases given with
    | false => exact hw.touch drivers
    | true =>
      exact (hw.touch drivers).acquire (by simpa using hnew) hlt drivers
  rintro ⟨st, given⟩
  apply Triple.ite
  · intro hfailed
    apply Triple.bind lastError_spec
    intro msg
    cases given with
    | false => exact .pure fun w hw ↦ hw
    | true =>
      apply Triple.bind freeResult_spec
      intro _
      exact .pure fun w hw ↦ hw
  · intro hok
    cases given with
    | false => exact .pure fun w hw ↦ hw
    | true => exact .pure fun w hw ↦ hw

theorem queryRun_spec :
    Triple (Working mgr handle past none none) (queryRun env driver handle sql maxRows offset)
      fun _ w ↦ ∃ dr, Working mgr handle past dr none w := by
  apply Triple.bind openResult_spec
  intro opened
  cases opened with
  | error failure => exact .pure fun w hw ↦ ⟨none, hw⟩
  | ok r =>
    apply materialize_spec.post
    intro page w hw
    cases page with
    | error failure => exact ⟨some r, hw⟩
    | ok res => exact ⟨some r, hw⟩

/-- The cursor a call of `dbcore_query_open` hands on. -/
def openCursor : Except (Status × Text) (Result × Option ResultId) → Option ResultId
  | .ok page => page.2
  | .error _ => none

theorem queryOpen_spec :
    Triple (Working mgr handle past none none) (queryOpen env driver handle sql maxRows)
      fun page w ↦ ∃ dr, Working mgr handle past dr (openCursor page) w ∧
        ∀ r ∈ openCursor page, r ∈ dr := by
  apply Triple.bind openResult_spec
  intro opened
  cases opened with
  | error failure => exact .pure fun w hw ↦ ⟨none, hw, by simp [openCursor]⟩
  | ok r =>
    apply Triple.bind materialize_spec
    intro page
    refine Triple.pre (S := fun w ↦ Working mgr handle past (some r) (leftOpen r true page) w) ?_
      fun w hw ↦ hw
    cases page with
    | error failure => exact .pure fun w hw ↦ ⟨some r, hw, by simp [openCursor]⟩
    | ok res => exact .pure fun w hw ↦ ⟨some r, hw, by simp [openCursor]⟩

theorem queryNext_spec :
    Triple (Working mgr handle past none (some r)) (queryNext env driver handle r maxRows)
      fun page ↦ Working mgr handle past (some r)
        (match page with
          | .ok (_, isOpen) => if isOpen then some r else none
          | .error _ => none) := by
  apply Triple.bind materialize_spec
  intro page
  cases page with
  | error failure => exact .pure fun w hw ↦ hw
  | ok res => exact .pure fun w hw ↦ hw

end Calls

end Squaero.Core
