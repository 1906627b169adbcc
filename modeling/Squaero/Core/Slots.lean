import Mathlib.Logic.Function.Basic
import Squaero.Core.ManagerOwnership

/-!
# The manager as a map

Where no two slots have one id, the array of slots is a map from ids to connections: opening,
closing and changing a connection are updates at its id.
-/

namespace Squaero.Core

open Squaero.Lib

namespace Manager

variable {mgr mgr' : Manager} {id other i : ℕ} {s t : Slot}

/-- The connection `id`. -/
def conn (mgr : Manager) (id : ℕ) : Option Slot := (mgr.findSlot id).map Prod.snd

/-- No id is used twice, and none from `nextId` on. -/
structure Numbered (mgr : Manager) : Prop where
  next_pos : 0 < mgr.nextId
  id_pos : ∀ s ∈ mgr.live, 0 < s.id
  id_lt : ∀ s ∈ mgr.live, s.id < mgr.nextId
  nodup : (mgr.live.map Slot.id).Nodup

theorem numbered_new : Manager.new.Numbered where
  next_pos := Nat.one_pos
  id_pos s hs := by cases hs
  id_lt s hs := by cases hs
  nodup := List.nodup_nil

@[simp]
theorem conn_new : Manager.new.conn id = none := by
  rw [conn, findSlot]
  split <;> rfl

theorem findIn_of_mem {slots : List (Option Slot)} (hs : s ∈ slots.reduceOption) :
    ∃ i t, findIn s.id slots = some (i, t) := by
  induction slots with
  | nil => cases hs
  | cons x slots ih =>
    have hlater (hs : s ∈ slots.reduceOption) :
        ∃ i t, (findIn s.id slots).map (fun r ↦ (r.1 + 1, r.2)) = some (i, t) := by
      obtain ⟨i, t, hfind⟩ := ih hs
      exact ⟨i + 1, t, by rw [hfind, Option.map_some]⟩
    cases x with
    | none => exact hlater hs
    | some t =>
      by_cases hid : t.id = s.id
      · exact ⟨0, t, by rw [findIn, if_pos hid]⟩
      · rw [List.reduceOption_cons_of_some] at hs
        rcases List.mem_cons.1 hs with rfl | hs
        · exact absurd rfl hid
        · rw [findIn, if_neg hid]
          exact hlater hs

theorem mem_live_of_conn (h : mgr.conn id = some s) : s ∈ mgr.live ∧ s.id = id := by
  obtain ⟨⟨i, t⟩, hfind, rfl⟩ := Option.map_eq_some_iff.1 h
  obtain ⟨hslot, hid, -⟩ := findSlot_eq_some hfind
  exact ⟨List.reduceOption_mem_iff.2 (List.mem_of_getElem? hslot), hid⟩

theorem conn_of_find (h : mgr.findSlot id = some (i, s)) : mgr.conn id = some s := by
  rw [conn, h, Option.map_some]

theorem Numbered.eq_of_id (h : mgr.Numbered) (hs : s ∈ mgr.live) (ht : t ∈ mgr.live)
    (hid : s.id = t.id) : s = t :=
  List.inj_on_of_nodup_map h.nodup hs ht hid

theorem Numbered.conn_eq_some (h : mgr.Numbered) :
    mgr.conn id = some s ↔ s ∈ mgr.live ∧ s.id = id := by
  refine ⟨mem_live_of_conn, ?_⟩
  rintro ⟨hs, rfl⟩
  obtain ⟨i, t, hfind⟩ := findIn_of_mem hs
  have hconn : mgr.conn s.id = some t := by
    rw [conn, findSlot, if_neg (h.id_pos s hs).ne', hfind, Option.map_some]
  obtain ⟨ht, hid⟩ := mem_live_of_conn hconn
  rw [hconn, h.eq_of_id ht hs hid]

theorem Numbered.conn_next (h : mgr.Numbered) (hid : mgr.nextId ≤ id) : mgr.conn id = none := by
  cases hconn : mgr.conn id with
  | none => rfl
  | some s =>
    obtain ⟨hs, rfl⟩ := mem_live_of_conn hconn
    exact absurd (h.id_lt s hs) (not_lt.2 hid)

/-- The connection `id` changes to `x`, and no other does. -/
structure Sets (mgr : Manager) (id : ℕ) (x : Option Slot) (mgr' : Manager) : Prop where
  numbered : mgr'.Numbered
  next : mgr'.nextId = mgr.nextId
  conn : mgr'.conn = Function.update mgr.conn id x

/-- Apart from one id two managers agree once their other slots are the same. -/
theorem conn_update {others : List Slot} {x : Option Slot} (h : mgr.Numbered)
    (h' : mgr'.Numbered) (hother : ∀ s ∈ mgr.live, s.id ≠ id → s ∈ others)
    (hothers : ∀ s ∈ others, s ∈ mgr.live ∧ s.id ≠ id) (hx : ∀ s ∈ x, s.id = id)
    (hlive : mgr'.live.Perm (x.toList ++ others)) :
    mgr'.conn = Function.update mgr.conn id x := by
  funext other
  apply Option.ext
  intro s
  rw [h'.conn_eq_some, hlive.mem_iff, List.mem_append, Option.mem_toList]
  by_cases hid : other = id
  · subst hid
    rw [Function.update_self]
    constructor
    · rintro ⟨hs | hs, hsid⟩
      · exact hs
      · exact absurd hsid (hothers s hs).2
    · intro hs
      exact ⟨.inl hs, hx s hs⟩
  · rw [Function.update_of_ne hid, h.conn_eq_some]
    constructor
    · rintro ⟨hs | hs, rfl⟩
      · exact absurd (hx s hs) hid
      · exact ⟨(hothers s hs).1, rfl⟩
    · rintro ⟨hs, rfl⟩
      exact ⟨.inr (hother s hs hid), rfl⟩

/-- A slot in use gets other contents, or none. -/
theorem sets_setSlot (h : mgr.Numbered) (hfind : mgr.findSlot id = some (i, s)) {x : Option Slot}
    (hx : ∀ t ∈ x, t.id = id) : mgr.Sets id x (mgr.setSlot i x) := by
  obtain ⟨hslot, hid, -⟩ := findSlot_eq_some hfind
  obtain ⟨others, hlive, hset⟩ := live_setSlot hslot
  have hnodup : ((s :: others).map Slot.id).Nodup := (hlive.map Slot.id).nodup_iff.1 h.nodup
  have hothers : ∀ t ∈ others, t ∈ mgr.live ∧ t.id ≠ id := by
    intro t ht
    refine ⟨hlive.mem_iff.2 (.tail _ ht), fun heq ↦ ?_⟩
    refine (List.nodup_cons.1 hnodup).1 ?_
    exact List.mem_map.2 ⟨t, ht, heq.trans hid.symm⟩
  have hnumbered : (mgr.setSlot i x).Numbered := by
    have hbound : ∀ t ∈ (mgr.setSlot i x).live, 0 < t.id ∧ t.id < mgr.nextId := by
      intro t ht
      rcases List.mem_append.1 ((hset x).mem_iff.1 ht) with ht | ht
      · rw [hx t (Option.mem_toList.1 ht), ← hid]
        have hs : s ∈ mgr.live := hlive.mem_iff.2 (.head _)
        exact ⟨h.id_pos s hs, h.id_lt s hs⟩
      · exact ⟨h.id_pos t (hothers t ht).1, h.id_lt t (hothers t ht).1⟩
    refine ⟨h.next_pos, fun t ht ↦ (hbound t ht).1, fun t ht ↦ (hbound t ht).2, ?_⟩
    refine ((hset x).map Slot.id).nodup_iff.2 ?_
    cases x with
    | none => exact (List.nodup_cons.1 hnodup).2
    | some t =>
      refine List.nodup_cons.2 ⟨?_, (List.nodup_cons.1 hnodup).2⟩
      rw [hx t rfl, ← hid]
      exact (List.nodup_cons.1 hnodup).1
  refine ⟨hnumbered, rfl, conn_update h hnumbered ?_ hothers hx (hset x)⟩
  intro t ht hne
  rcases List.mem_cons.1 (hlive.mem_iff.1 ht) with rfl | ht
  · exact absurd hid hne
  · exact ht

/-- A new connection gets the next id. -/
theorem acquire_conn (h : mgr.Numbered) (hs : s.id = mgr.nextId) :
    ({ mgr with nextId := mgr.nextId + 1 }.acquire s).Numbered ∧
      ({ mgr with nextId := mgr.nextId + 1 }.acquire s).nextId = mgr.nextId + 1 ∧
      ({ mgr with nextId := mgr.nextId + 1 }.acquire s).conn =
        Function.update mgr.conn mgr.nextId (some s) := by
  have hlive := acquire_live { mgr with nextId := mgr.nextId + 1 } s
  have hnext : ({ mgr with nextId := mgr.nextId + 1 }.acquire s).nextId = mgr.nextId + 1 := by
    rw [acquire]
    split <;> rfl
  have hfresh : ∀ t ∈ mgr.live, t.id ≠ mgr.nextId := fun t ht ↦ (h.id_lt t ht).ne
  have hbound : ∀ t ∈ ({ mgr with nextId := mgr.nextId + 1 }.acquire s).live,
      0 < t.id ∧ t.id < mgr.nextId + 1 := by
    intro t ht
    rcases List.mem_cons.1 (hlive.mem_iff.1 ht) with rfl | ht
    · rw [hs]
      exact ⟨h.next_pos, Nat.lt_succ_self _⟩
    · exact ⟨h.id_pos t ht, (h.id_lt t ht).trans (Nat.lt_succ_self _)⟩
  have hnumbered : ({ mgr with nextId := mgr.nextId + 1 }.acquire s).Numbered := by
    refine ⟨?_, fun t ht ↦ (hbound t ht).1, fun t ht ↦ ?_, ?_⟩
    · rw [hnext]
      exact Nat.succ_pos _
    · rw [hnext]
      exact (hbound t ht).2
    · refine (hlive.map Slot.id).nodup_iff.2 (List.nodup_cons.2 ⟨fun hmem ↦ ?_, h.nodup⟩)
      obtain ⟨t, ht, heq⟩ := List.mem_map.1 hmem
      exact hfresh t ht (heq.trans hs)
  refine ⟨hnumbered, hnext, conn_update h hnumbered (fun t ht _ ↦ ht) ?_ ?_ hlive⟩
  · exact fun t ht ↦ ⟨ht, hfresh t ht⟩
  · rintro t ⟨⟩
    exact hs

end Manager

end Squaero.Core
