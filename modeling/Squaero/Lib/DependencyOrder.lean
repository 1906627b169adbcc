import Mathlib.Data.List.Nodup
import Mathlib.Data.Set.Finite.List
import Mathlib.Logic.Relation
import Mathlib.Order.WellFounded
import Mathlib.Data.Fintype.EquivFin

/-!
# Items in the order of their dependencies

Kahn's algorithm by keys: passes over the items take each one whose dependencies have all been taken, until a pass
takes none. What is left lies on a cycle of dependencies or behind one, and comes last.
-/

namespace Squaero.Lib.DependencyOrder

open Relation

variable {α κ : Type*} [DecidableEq κ] (key : α → κ) (need : κ → List κ)

/-- An item is taken once none of the keys it needs is pending. -/
def visit (st : List α × List κ) (a : α) : List α × List κ :=
  if key a ∈ st.2 ∧ ∀ d ∈ need (key a), d ∉ st.2 then (st.1 ++ [a], st.2.filter (· ≠ key a)) else st

def pass (items : List α) (st : List α × List κ) : List α × List κ := items.foldl (visit key need) st

/-- Passes as long as they take something, at most `fuel`. -/
def passes (items : List α) : ℕ → List α × List κ → List α × List κ
  | 0, st => st
  | fuel + 1, st =>
    if st.1.length < (pass key need items st).1.length then passes items fuel (pass key need items st)
    else pass key need items st

/-- A pass that takes something takes an item at least, so there is one for each item and a last one. -/
def final (items : List α) : List α × List κ := passes key need items (items.length + 1) ([], items.map key)

def cyclic (items : List α) : List α := items.filter fun a ↦ key a ∈ (final key need items).2

def order (items : List α) : List α := (final key need items).1 ++ cyclic key need items

/-! ## Dependencies -/

def Needs (items : List α) (a b : α) : Prop := a ∈ items ∧ b ∈ items ∧ key b ∈ need (key a)

def OnOrBehindCycle {β : Type*} (r : β → β → Prop) (a : β) : Prop := ∃ b, ReflTransGen r a b ∧ TransGen r b b

def Precedes (l : List α) (b a : α) : Prop := ∃ before after, l = before ++ a :: after ∧ b ∈ before

/-! ## What passes keep -/

structure Ordered (items : List α) (st : List α × List κ) : Prop where
  subset : ∀ a ∈ st.1, a ∈ items
  keys : ∀ d ∈ st.2, ∃ a ∈ items, key a = d
  pending : ∀ a ∈ items, (key a ∈ st.2 ↔ a ∉ st.1)
  nodup : st.1.Nodup
  closed : ∀ before a after, st.1 = before ++ a :: after → ∀ b ∈ items, key b ∈ need (key a) → b ∈ before

variable {key need} {items : List α} (hkeys : (items.map key).Nodup)

omit [DecidableEq κ] in
theorem ordered_start : Ordered key need items ([], items.map key) where
  subset := nofun
  keys d hd := List.mem_map.mp hd
  pending a ha := iff_of_true (List.mem_map_of_mem ha) List.not_mem_nil
  nodup := List.nodup_nil
  closed before a after h := absurd h (by simp)

include hkeys

theorem ordered_visit {st : List α × List κ} (h : Ordered key need items st) {a : α} (ha : a ∈ items) :
    Ordered key need items (visit key need st a) := by
  unfold visit
  split_ifs with hready
  · obtain ⟨hpending, hneeds⟩ := hready
    have hnew : a ∉ st.1 := (h.pending a ha).mp hpending
    constructor
    · intro b hb
      rcases List.mem_append.mp hb with hb | hb
      · exact h.subset b hb
      · exact List.mem_singleton.mp hb ▸ ha
    · exact fun d hd ↦ h.keys d (List.mem_filter.mp hd).1
    · intro b hb
      have hsame : key b = key a ↔ b = a := ⟨fun heq ↦ List.inj_on_of_nodup_map hkeys hb ha heq, congrArg key⟩
      simp only [List.mem_filter, decide_eq_true_eq, List.mem_append, List.mem_singleton, not_or, ne_eq, hsame,
        h.pending b hb]
    · exact List.Nodup.append h.nodup (List.nodup_singleton a) (List.disjoint_singleton.mpr hnew)
    · intro before c after hsplit b hb hneed
      rcases List.eq_nil_or_concat after with rfl | ⟨after, last, rfl⟩
      · obtain ⟨rfl, hlast⟩ := List.append_inj' hsplit rfl
        obtain rfl : a = c := by simpa using hlast
        by_contra hnot
        exact hneeds (key b) hneed ((h.pending b hb).mpr hnot)
      · rw [List.concat_eq_append, ← List.cons_append, ← List.append_assoc] at hsplit
        exact h.closed before c after (List.append_inj' hsplit rfl).1 b hb hneed
  · exact h

theorem ordered_foldl {st : List α × List κ} (h : Ordered key need items st) {part : List α}
    (hpart : ∀ a ∈ part, a ∈ items) : Ordered key need items (part.foldl (visit key need) st) := by
  induction part generalizing st with
  | nil => exact h
  | cons a part ih =>
    have hfirst := ordered_visit hkeys h (hpart a List.mem_cons_self)
    exact ih hfirst fun b hb ↦ hpart b (List.mem_cons_of_mem a hb)

theorem ordered_pass {st : List α × List κ} (h : Ordered key need items st) :
    Ordered key need items (pass key need items st) := ordered_foldl hkeys h fun _ ha ↦ ha

theorem ordered_passes {st : List α × List κ} (h : Ordered key need items st) (fuel : ℕ) :
    Ordered key need items (passes key need items fuel st) := by
  induction fuel generalizing st with
  | zero => exact h
  | succ fuel ih =>
    unfold passes
    split_ifs
    · exact ih (ordered_pass hkeys h)
    · exact ordered_pass hkeys h

theorem ordered_final : Ordered key need items (final key need items) := ordered_passes hkeys ordered_start _

omit hkeys

/-! ## Where passes end -/

theorem visit_eq_or (st : List α × List κ) (a : α) :
    visit key need st a = st ∨ (visit key need st a).1.length = st.1.length + 1 := by
  unfold visit
  split_ifs
  · exact .inr (by simp)
  · exact .inl rfl

theorem length_foldl_visit (part : List α) (st : List α × List κ) :
    st.1.length ≤ (part.foldl (visit key need) st).1.length := by
  induction part generalizing st with
  | nil => exact le_rfl
  | cons a part ih =>
    refine le_trans ?_ (ih (visit key need st a))
    have hvisit : visit key need st a = st ∨ (visit key need st a).1.length = st.1.length + 1 := visit_eq_or st a
    rcases hvisit with h | h
    · rw [h]
    · omega

/-- A pass that takes nothing changes nothing. -/
theorem foldl_visit_of_length {part : List α} {st : List α × List κ}
    (h : (part.foldl (visit key need) st).1.length ≤ st.1.length) :
    part.foldl (visit key need) st = st ∧ ∀ a ∈ part, visit key need st a = st := by
  induction part generalizing st with
  | nil => exact ⟨rfl, nofun⟩
  | cons a part ih =>
    rw [List.foldl_cons] at h ⊢
    have hrest : (visit key need st a).1.length ≤ (part.foldl (visit key need) (visit key need st a)).1.length :=
      length_foldl_visit part _
    have hfirst : visit key need st a = st := by
      refine (visit_eq_or st a).resolve_right fun hgrown ↦ ?_
      omega
    rw [hfirst] at h ⊢
    obtain ⟨heq, hothers⟩ := ih h
    exact ⟨heq, List.forall_mem_cons.mpr ⟨hfirst, hothers⟩⟩

/-- Every item that is left needs one that is left. -/
def Stuck (key : α → κ) (need : κ → List κ) (items : List α) (st : List α × List κ) : Prop :=
  ∀ a ∈ items, key a ∈ st.2 → ∃ d ∈ need (key a), d ∈ st.2

theorem stuck_of_visit {st : List α × List κ} (h : ∀ a ∈ items, visit key need st a = st) :
    Stuck key need items st := by
  intro a ha hpending
  by_contra hnone
  push Not at hnone
  have hvisit := h a ha
  unfold visit at hvisit
  rw [if_pos ⟨hpending, hnone⟩] at hvisit
  have hlength := congrArg (List.length ∘ Prod.fst) hvisit
  simp at hlength

include hkeys

theorem stuck_passes {st : List α × List κ} (h : Ordered key need items st) {fuel : ℕ}
    (hfuel : items.length < st.1.length + fuel) : Stuck key need items (passes key need items fuel st) := by
  induction fuel generalizing st with
  | zero =>
    have hlength : st.1.length ≤ items.length := (h.nodup.subperm h.subset).length_le
    omega
  | succ fuel ih =>
    unfold passes
    split_ifs with hgrown
    · exact ih (ordered_pass hkeys h) (by omega)
    · obtain ⟨heq, hsame⟩ := foldl_visit_of_length (not_lt.mp hgrown)
      change Stuck key need items (items.foldl (visit key need) st)
      rw [heq]
      exact stuck_of_visit hsame

theorem stuck_final : Stuck key need items (final key need items) :=
  stuck_passes hkeys ordered_start (by simp)

omit hkeys

omit [DecidableEq κ] in
/-- From an item that is left, dependencies lead into a cycle. -/
theorem onOrBehindCycle_of_stuck {st : List α × List κ} (hst : ∀ d ∈ st.2, ∃ a ∈ items, key a = d)
    (h : Stuck key need items st) {a : α} (ha : a ∈ items) (hpending : key a ∈ st.2) :
    OnOrBehindCycle (Needs key need items) a := by
  by_contra hacyclic
  let Left := {b : α // b ∈ items ∧ key b ∈ st.2 ∧ ReflTransGen (Needs key need items) a b}
  have hfinite : Finite Left := Set.Finite.subset (List.finite_toSet items) fun b hb ↦ hb.1
  let below : Left → Left → Prop := fun c b ↦ TransGen (Needs key need items) b.1 c.1
  have htrans : IsTrans Left below := ⟨fun b c d hbc hcd ↦ hcd.trans hbc⟩
  have hirrefl : Std.Irrefl below := ⟨fun b hb ↦ hacyclic ⟨b.1, b.2.2.2, hb⟩⟩
  have hwell : WellFounded below := Finite.wellFounded_of_trans_of_irrefl below
  obtain ⟨⟨b, hb, hpendingb, hreach⟩, -, hmin⟩ := hwell.has_min Set.univ ⟨⟨a, ha, hpending, .refl⟩, trivial⟩
  obtain ⟨d, hneed, hd⟩ := h b hb hpendingb
  obtain ⟨c, hc, rfl⟩ := hst d hd
  have hstep : Needs key need items b c := ⟨hb, hc, hneed⟩
  exact hmin ⟨c, hc, hd, hreach.tail hstep⟩ trivial (.single hstep)

/-! ## The order -/

include hkeys

theorem mem_final_or (a : α) (ha : a ∈ items) : a ∈ (final key need items).1 ∨ a ∈ cyclic key need items := by
  by_cases h : a ∈ (final key need items).1
  · exact .inl h
  · exact .inr (List.mem_filter.mpr ⟨ha, decide_eq_true (((ordered_final hkeys).pending a ha).mpr h)⟩)

/-- Each item stands in the order once. -/
theorem order_perm : (order key need items).Perm items := by
  have hordered : Ordered key need items (final key need items) := ordered_final hkeys
  have hitems : items.Nodup := List.Nodup.of_map key hkeys
  have hdisjoint : List.Disjoint (final key need items).1 (cyclic key need items) := by
    intro a ha hcyclic
    obtain ⟨hmem, hpending⟩ := List.mem_filter.mp hcyclic
    exact (hordered.pending a hmem).mp (of_decide_eq_true hpending) ha
  have hnodup : (order key need items).Nodup := hordered.nodup.append (hitems.filter _) hdisjoint
  refine (List.perm_ext_iff_of_nodup hnodup hitems).mpr fun a ↦ ?_
  unfold order
  rw [List.mem_append]
  constructor
  · rintro (ha | ha)
    · exact hordered.subset a ha
    · exact (List.mem_filter.mp ha).1
  · exact mem_final_or hkeys a

/-- An item comes after what it needs, unless that lies on a cycle or behind one. -/
theorem order_precedes {a b : α} (h : Needs key need items a b) (hb : ¬ OnOrBehindCycle (Needs key need items) b) :
    Precedes (order key need items) b a := by
  obtain ⟨hmema, hmemb, hneed⟩ := h
  have hordered : Ordered key need items (final key need items) := ordered_final hkeys
  have hdone : b ∈ (final key need items).1 := by
    by_contra hnot
    exact hb (onOrBehindCycle_of_stuck hordered.keys (stuck_final hkeys) hmemb ((hordered.pending b hmemb).mpr hnot))
  unfold order
  rcases mem_final_or hkeys a hmema with ha | ha
  · obtain ⟨before, after, hsplit⟩ := List.append_of_mem ha
    exact ⟨before, after ++ cyclic key need items, by rw [hsplit, List.append_assoc, List.cons_append],
      hordered.closed before a after hsplit b hmemb hneed⟩
  · obtain ⟨before, after, hsplit⟩ := List.append_of_mem ha
    exact ⟨(final key need items).1 ++ before, after, by rw [hsplit, List.append_assoc], List.mem_append_left before hdone⟩

omit hkeys [DecidableEq κ]

/-! ## Items by their names -/

section

variable {β : Type*} {r : α → α → Prop} {r' : β → β → Prop} {name : β → α} {s : β → Prop}
  (hstep : ∀ b, s b → ∀ a, r (name b) a → ∃ c, s c ∧ name c = a ∧ r' b c)

include hstep

theorem lift_path {b : β} (hb : s b) {a : α} (h : ReflTransGen r (name b) a) :
    ∃ c, s c ∧ name c = a ∧ ReflTransGen r' b c := by
  induction h with
  | refl => exact ⟨b, hb, rfl, .refl⟩
  | tail _ hlast ih =>
    obtain ⟨c, hc, rfl, hpath⟩ := ih
    obtain ⟨d, hd, rfl, hcd⟩ := hstep c hc _ hlast
    exact ⟨d, hd, rfl, hpath.tail hcd⟩

/-- What lies on a cycle of names or behind one lies on a cycle of items or behind one. -/
theorem OnOrBehindCycle.lift (hname : ∀ b c, s b → s c → name b = name c → b = c) {b : β} (hb : s b)
    (h : OnOrBehindCycle r (name b)) : OnOrBehindCycle r' b := by
  obtain ⟨a, hreach, hcycle⟩ := h
  obtain ⟨c, hc, rfl, hpath⟩ := lift_path hstep hb hreach
  obtain ⟨a, hfirst, hrest⟩ := TransGen.head'_iff.mp hcycle
  obtain ⟨d, hd, rfl, hcd⟩ := hstep c hc a hfirst
  obtain ⟨c', hc', hsame, hback⟩ := lift_path hstep hd hrest
  rw [hname c' c hc' hc hsame] at hback
  exact ⟨c, hpath, TransGen.head' hcd hback⟩

end

end Squaero.Lib.DependencyOrder
