import Mathlib.Algebra.BigOperators.Group.List.Basic
import Mathlib.Algebra.GroupWithZero.Nat
import Mathlib.Data.List.Nodup
import Mathlib.Tactic.Common

/-!
# Records as lists of entries

An object that is used as a map, with its entries in the order of their first assignment. Assigning to a key that is
there keeps its place.
-/

namespace Squaero.Lib.Records

variable {κ α : Type} [DecidableEq κ]

/-- `{ ...record, [key]: value }` -/
def put (key : κ) (value : α) : List (κ × α) → List (κ × α)
  | [] => [(key, value)]
  | entry :: record => if entry.1 = key then (key, value) :: record else entry :: put key value record

attribute [local grind =] put

/-- Of two values for one key the later one stays. -/
theorem put_put (key : κ) (value later : α) (record : List (κ × α)) :
    put key later (put key value record) = put key later record := by
  induction record with
  | nil => simp [put]
  | cons entry record ih =>
    rw [put]
    by_cases hk : entry.1 = key
    · rw [if_pos hk, put, if_pos rfl, put, if_pos hk]
    · rw [if_neg hk, put, if_neg hk, put, if_neg hk, ih]

theorem mem_put {key : κ} {value : α} {entry : κ × α} {record : List (κ × α)} (h : entry ∈ put key value record) :
    entry = (key, value) ∨ entry ∈ record := by
  induction record with
  | nil => exact .inl (List.mem_singleton.mp h)
  | cons first record ih =>
    rw [put] at h
    split_ifs at h with hk
    · exact (List.mem_cons.mp h).imp id (.tail _)
    · rcases List.mem_cons.mp h with rfl | h
      · exact .inr (.head _)
      · exact (ih h).imp id (.tail _)

theorem mem_put_self (key : κ) (value : α) (record : List (κ × α)) : (key, value) ∈ put key value record := by
  induction record with
  | nil => exact .head _
  | cons entry record ih =>
    rw [put]
    split_ifs
    · exact .head _
    · exact .tail _ ih

theorem put_of_not_mem {key : κ} {record : List (κ × α)} (h : key ∉ record.map Prod.fst) (value : α) :
    put key value record = record ++ [(key, value)] := by
  induction record with
  | nil => rfl
  | cons entry record ih =>
    rw [List.map_cons, List.mem_cons, not_or] at h
    rw [put, if_neg (Ne.symm h.1), ih h.2, List.cons_append]

/-- No key goes. -/
theorem mem_keys_put {key other : κ} {value : α} {record : List (κ × α)} :
    other ∈ (put key value record).map Prod.fst ↔ other = key ∨ other ∈ record.map Prod.fst := by
  induction record with
  | nil => simp [put]
  | cons entry record ih =>
    rw [put]
    split_ifs with hk
    · simp [hk]
    · rw [List.map_cons, List.mem_cons, ih, List.map_cons, List.mem_cons]
      tauto

section Lookup

variable [BEq κ] [LawfulBEq κ]

theorem lookup_put (key other : κ) (value : α) (record : List (κ × α)) :
    (put key value record).lookup other = if other = key then some value else record.lookup other := by
  induction record with
  | nil =>
    rw [put, List.lookup_cons, List.lookup_nil]
    by_cases hkey : other = key
    · rw [beq_iff_eq.mpr hkey, if_pos hkey]
    · rw [beq_false_of_ne hkey, if_neg hkey]
  | cons entry record ih =>
    obtain ⟨k, v⟩ := entry
    rw [put]
    by_cases hk : k = key
    · rw [if_pos hk, List.lookup_cons, List.lookup_cons, hk]
      by_cases hother : other = key
      · rw [beq_iff_eq.mpr hother, if_pos hother]
      · rw [beq_false_of_ne hother, if_neg hother]
    · rw [if_neg hk, List.lookup_cons, List.lookup_cons, ih]
      by_cases hother : other = k
      · have hne : other ≠ key := hother ▸ hk
        rw [if_neg hne, if_neg hne]
      · rw [beq_false_of_ne hother]

@[simp]
theorem lookup_put_self (key : κ) (value : α) (record : List (κ × α)) :
    (put key value record).lookup key = some value := by
  rw [lookup_put, if_pos rfl]

theorem lookup_put_of_ne {key other : κ} (h : other ≠ key) (value : α) (record : List (κ × α)) :
    (put key value record).lookup other = record.lookup other := by
  rw [lookup_put, if_neg h]

theorem put_of_lookup {key : κ} {value : α} {record : List (κ × α)} (h : record.lookup key = some value) :
    put key value record = record := by
  induction record with
  | nil => cases h
  | cons entry record ih =>
    obtain ⟨k, v⟩ := entry
    rw [List.lookup_cons] at h
    rw [put]
    by_cases hk : k = key
    · rw [beq_iff_eq.mpr hk.symm] at h
      rw [if_pos hk, ← Option.some.inj h, hk]
    · rw [beq_false_of_ne (Ne.symm hk)] at h
      rw [if_neg hk, ih h]

theorem lookup_eq_none_iff {key : κ} {record : List (κ × α)} :
    record.lookup key = none ↔ key ∉ record.map Prod.fst := by
  induction record with
  | nil => simp
  | cons entry record ih =>
    rw [List.lookup_cons, List.map_cons, List.mem_cons, not_or, ← ih]
    by_cases hkey : key = entry.1
    · simp [hkey]
    · rw [beq_false_of_ne hkey, and_iff_right hkey]

theorem lookup_eq_some_iff {key : κ} {value : α} {record : List (κ × α)} (h : (record.map Prod.fst).Nodup) :
    record.lookup key = some value ↔ (key, value) ∈ record := by
  induction record with
  | nil => simp
  | cons entry record ih =>
    obtain ⟨k, v⟩ := entry
    rw [List.map_cons, List.nodup_cons] at h
    rw [List.lookup_cons, List.mem_cons]
    by_cases hkey : key = k
    · have hnot : (k, value) ∉ record := fun hmem ↦ h.1 (List.mem_map.mpr ⟨_, hmem, rfl⟩)
      rw [hkey, beq_self_eq_true]
      simp only [hnot, or_false, Option.some.injEq, Prod.mk.injEq, true_and]
      exact eq_comm
    · rw [beq_false_of_ne hkey]
      simp only [ih h.2, Prod.mk.injEq, hkey, false_and, false_or]

omit [DecidableEq κ] in
theorem mem_of_lookup {key : κ} {value : α} {record : List (κ × α)} (h : record.lookup key = some value) :
    (key, value) ∈ record := by
  obtain ⟨before, after, rfl, -⟩ := List.lookup_eq_some_iff.mp h
  exact List.mem_append_right _ (.head _)

/-- The record splits where the key is. -/
theorem put_of_lookup_some {key : κ} {old : α} {record : List (κ × α)} (h : record.lookup key = some old) :
    ∃ before after, record = before ++ (key, old) :: after ∧ key ∉ before.map Prod.fst ∧
      ∀ value, put key value record = before ++ (key, value) :: after := by
  induction record with
  | nil => cases h
  | cons entry record ih =>
    obtain ⟨k, v⟩ := entry
    rw [List.lookup_cons] at h
    by_cases hkey : key = k
    · rw [beq_iff_eq.mpr hkey] at h
      obtain rfl := Option.some.inj h
      exact ⟨[], record, by rw [hkey]; rfl, List.not_mem_nil, fun value ↦ if_pos hkey.symm⟩
    · rw [beq_false_of_ne hkey] at h
      obtain ⟨before, after, rfl, hnot, hput⟩ := ih h
      refine ⟨(k, v) :: before, after, rfl, ?_, fun value ↦ ?_⟩
      · rw [List.map_cons, List.mem_cons, not_or]
        exact ⟨hkey, hnot⟩
      · rw [put, if_neg (Ne.symm hkey), hput, List.cons_append]

theorem nodup_put {record : List (κ × α)} (h : (record.map Prod.fst).Nodup) (key : κ) (value : α) :
    ((put key value record).map Prod.fst).Nodup := by
  cases hlookup : record.lookup key with
  | none =>
    have hnot := lookup_eq_none_iff.mp hlookup
    rw [put_of_not_mem hnot, List.map_append, List.map_singleton, ← List.concat_eq_append]
    exact h.concat hnot
  | some old =>
    obtain ⟨before, after, rfl, -, hput⟩ := put_of_lookup_some hlookup
    rw [hput]
    rwa [List.map_append, List.map_cons] at h ⊢

theorem mem_put_iff {key : κ} {value : α} {entry : κ × α} {record : List (κ × α)} (h : (record.map Prod.fst).Nodup) :
    entry ∈ put key value record ↔ entry = (key, value) ∨ entry ∈ record ∧ entry.1 ≠ key := by
  obtain ⟨other, v⟩ := entry
  rw [← lookup_eq_some_iff (nodup_put h key value), ← lookup_eq_some_iff h, lookup_put, Prod.mk.injEq]
  split_ifs with hother
  · simp [hother, eq_comm]
  · simp [hother]

/-- A sum over a record in which one value is replaced. -/
theorem sum_put (f : α → ℕ) (key : κ) (value : α) (record : List (κ × α)) :
    ((put key value record).map fun e ↦ f e.2).sum + ((record.lookup key).map f).getD 0 =
      (record.map fun e ↦ f e.2).sum + f value := by
  cases hlookup : record.lookup key with
  | none =>
    rw [put_of_not_mem (lookup_eq_none_iff.mp hlookup), List.map_append, List.sum_append]
    rfl
  | some old =>
    obtain ⟨before, after, hrecord, -, hput⟩ := put_of_lookup_some hlookup
    rw [hput, hrecord, List.map_append, List.map_append, List.sum_append, List.sum_append, List.map_cons, List.map_cons,
      List.sum_cons, List.sum_cons, Option.map_some, Option.getD_some]
    dsimp only
    omega

/-- Another value for a key that is there changes no keys. -/
theorem keys_put_of_lookup {key : κ} {old : α} {record : List (κ × α)} (h : record.lookup key = some old) (value : α) :
    (put key value record).map Prod.fst = record.map Prod.fst := by
  obtain ⟨before, after, hrecord, -, hput⟩ := put_of_lookup_some h
  rw [hput, hrecord, List.map_append, List.map_append, List.map_cons, List.map_cons]

end Lookup

/-! ## Records with the same keys -/

section Related

variable {β : Type} {S : α → β → Prop} {record : List (κ × α)} {other : List (κ × β)}

/-- The same keys in the same order, with values that are related. -/
abbrev Related (S : α → β → Prop) (record : List (κ × α)) (other : List (κ × β)) : Prop :=
  List.Forall₂ (fun p q ↦ p.1 = q.1 ∧ S p.2 q.2) record other

omit [DecidableEq κ] in
theorem Related.imp {T : α → β → Prop} (h : Related S record other) (himp : ∀ a b, S a b → T a b) :
    Related T record other :=
  List.Forall₂.imp (fun _ _ hpair ↦ ⟨hpair.1, himp _ _ hpair.2⟩) h

omit [DecidableEq κ] in
theorem Related.lookup [BEq κ] (h : Related S record other) (key : κ) :
    record.lookup key = none ∧ other.lookup key = none ∨
      ∃ a b, record.lookup key = some a ∧ other.lookup key = some b ∧ S a b := by
  induction h with
  | nil => exact .inl ⟨rfl, rfl⟩
  | @cons p q record other hpair _ ih =>
    rw [List.lookup_cons, List.lookup_cons, hpair.1]
    cases key == q.1 with
    | true => exact .inr ⟨p.2, q.2, rfl, rfl, hpair.2⟩
    | false => exact ih

theorem Related.put (h : Related S record other) (key : κ) {a : α} {b : β} (hab : S a b) :
    Related S (put key a record) (put key b other) := by
  induction h with
  | nil => exact .cons ⟨rfl, hab⟩ .nil
  | @cons p q record other hpair hrest ih =>
    rw [Records.put, Records.put, hpair.1]
    split_ifs
    · exact .cons ⟨rfl, hab⟩ hrest
    · exact .cons hpair ih

theorem Related.without (h : Related S record other) (key : κ) :
    Related S (record.filter (·.1 ≠ key)) (other.filter (·.1 ≠ key)) := by
  induction h with
  | nil => exact .nil
  | @cons p q record other hpair _ ih =>
    rw [List.filter_cons, List.filter_cons, hpair.1]
    split_ifs
    · exact .cons hpair ih
    · exact ih

end Related

end Squaero.Lib.Records
