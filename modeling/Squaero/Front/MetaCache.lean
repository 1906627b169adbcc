import Mathlib.Algebra.Order.BigOperators.Group.List
import Mathlib.Algebra.Order.Field.Rat
import Squaero.Lib.Eviction
import Squaero.Lib.Records
import Squaero.Lib.Text

/-!
# Introspection cache

The values of `frontend/src/utils/metaCache.ts`: the cache of a connection's catalog, its size cap and the eviction of
the entries used least recently. The objects that hold these values are in `MetaCacheObjects`.
-/

namespace Squaero.Front.MetaCache

open Squaero.Lib

/-- An entry with a value of type `V`. -/
structure CacheEntry (V : Type) where
  v : V
  fetched : ℚ
  used : ℚ
  s : ℕ
  stale : Bool
  deriving DecidableEq

structure ConnCache (V : Type) where
  fp : Text
  e : List (Text × CacheEntry V)

/-- The whole cache, by the id of the saved connection. -/
abbrev Cache (V : Type) := List (Text × ConnCache V)

/-- An entry with its connection and its key. -/
abbrev Victim (V : Type) := (Text × Text) × CacheEntry V

variable {V : Type}

/-- `delete record[key]` -/
def without {α : Type} (key : Text) (record : List (Text × α)) : List (Text × α) := record.filter (·.1 ≠ key)

def openConn (cache : Cache V) (id fp : Text) : Cache V :=
  if (cache.lookup id).map (·.fp) = some fp then cache else Records.put id ⟨fp, []⟩ cache

def clearConn (cache : Cache V) (id : Text) : Cache V :=
  match cache.lookup id with
  | none => cache
  | some _ => without id cache

def touch (cache : Cache V) (id key : Text) (now : ℚ) : Cache V :=
  match cache.lookup id with
  | none => cache
  | some c =>
    match c.e.lookup key with
    | none => cache
    | some e => Records.put id { c with e := Records.put key { e with used := now } c.e } cache

def allEntries (cache : Cache V) : List (Victim V) :=
  cache.flatMap fun (cid, cc) ↦ cc.e.map fun (k, e) ↦ ((cid, k), e)

def totalSize (cache : Cache V) : ℕ := (cache.map fun c ↦ (c.2.e.map (·.2.s)).sum).sum

/-- The cache with the entry deleted. -/
def removeEntry (next : Cache V) (cid k : Text) : Cache V :=
  match next.lookup cid with
  | none => next
  | some cc => Records.put cid { cc with e := without k cc.e } next

/-- The loop over the victims. -/
def evictFrom (cap : ℕ) : ℕ → List (Victim V) → Cache V → Cache V
  | _, [], next => next
  | total, ((cid, k), e) :: victims, next =>
    if total ≤ cap then next else evictFrom cap (total - e.s) victims (removeEntry next cid k)

/-- The entries other than the new one, the least recently used first. -/
def victimsOf (next : Cache V) (id key : Text) : List (Victim V) :=
  ((allEntries next).filter (·.1 ≠ (id, key))).insertionSort fun a b ↦ a.2.used ≤ b.2.used

section Put

-- the length of `JSON.stringify` of a value
variable (jsonLength : V → ℕ)

def entrySize (key : Text) (value : V) : ℕ := jsLength key + jsonLength value

/-- The cache with the new entry, before any goes. -/
def withEntry (cache : Cache V) (id : Text) (c : ConnCache V) (key : Text) (value : V) (now : ℚ) : Cache V :=
  Records.put id { c with e := Records.put key ⟨value, now, now, entrySize jsonLength key value, false⟩ c.e } cache

def putEntry (cache : Cache V) (id key : Text) (value : V) (now : ℚ) (cap : ℕ) : Cache V × Bool :=
  match cache.lookup id with
  | none => (cache, false)
  | some c =>
    if cap < entrySize jsonLength key value then (cache, false)
    else
      let next := withEntry jsonLength cache id c key value now
      let total := totalSize next
      if total ≤ cap then (next, true) else (evictFrom cap total (victimsOf next id key) next, true)

end Put

def markStale (cache : Cache V) (id : Text) (pred : Text → Bool) : Cache V :=
  match cache.lookup id with
  | none => cache
  | some c =>
    Records.put id { c with e := c.e.map fun (k, v) ↦ (k, if pred k then { v with stale := true } else v) } cache

/-! ## Entries and their places -/

/-- Every connection and every key of one is there once. -/
structure Keyed (cache : Cache V) : Prop where
  ids : (cache.map (·.1)).Nodup
  keys : ∀ c ∈ cache, (c.2.e.map (·.1)).Nodup

theorem keyed_nil : Keyed ([] : Cache V) := ⟨.nil, nofun⟩

theorem Keyed.of_lookup {cache : Cache V} (h : Keyed cache) {id : Text} {c : ConnCache V}
    (hlookup : cache.lookup id = some c) : (c.e.map (·.1)).Nodup :=
  h.keys _ (Records.mem_of_lookup hlookup)

theorem Keyed.put {cache : Cache V} (h : Keyed cache) (id : Text) {c : ConnCache V} (hkeys : (c.e.map (·.1)).Nodup) :
    Keyed (Records.put id c cache) where
  ids := Records.nodup_put h.ids id c
  keys p hp := by
    rcases Records.mem_put hp with rfl | hp
    · exact hkeys
    · exact h.keys p hp

theorem nodup_without {α : Type} (key : Text) {record : List (Text × α)} (h : (record.map (·.1)).Nodup) :
    ((without key record).map (·.1)).Nodup := (List.filter_sublist.map _).nodup h

theorem mem_allEntries {cache : Cache V} {x : Victim V} :
    x ∈ allEntries cache ↔ ∃ cc, (x.1.1, cc) ∈ cache ∧ (x.1.2, x.2) ∈ cc.e := by
  unfold allEntries
  constructor
  · intro hx
    obtain ⟨⟨cid, cc⟩, hcc, hx⟩ := List.mem_flatMap.mp hx
    obtain ⟨⟨k, e⟩, he, rfl⟩ := List.mem_map.mp hx
    exact ⟨cc, hcc, he⟩
  · intro ⟨cc, hcc, he⟩
    exact List.mem_flatMap.mpr ⟨_, hcc, List.mem_map.mpr ⟨_, he, rfl⟩⟩

theorem totalSize_eq (cache : Cache V) : totalSize cache = ((allEntries cache).map (·.2.s)).sum := by
  induction cache with
  | nil => rfl
  | cons p cache ih =>
    have hfirst : ((p.2.e.map fun (k, e) ↦ (((p.1, k), e) : Victim V)).map (·.2.s)).sum = (p.2.e.map (·.2.s)).sum := by
      rw [List.map_map]
      rfl
    unfold totalSize allEntries at *
    rw [List.map_cons, List.sum_cons, ih, List.flatMap_cons, List.map_append, List.sum_append, hfirst]

theorem nodup_places {cache : Cache V} (h : Keyed cache) : ((allEntries cache).map (·.1)).Nodup := by
  unfold allEntries
  rw [List.map_flatMap, List.nodup_flatMap]
  constructor
  · intro p hp
    have hplaces : (p.2.e.map fun (k, e) ↦ (((p.1, k), e) : Victim V)).map (·.1) = (p.2.e.map (·.1)).map fun k ↦ (p.1, k) := by
      rw [List.map_map, List.map_map]
      rfl
    rw [hplaces]
    exact (h.keys p hp).map fun _ _ heq ↦ (Prod.mk.inj heq).2
  · have hapart : cache.Pairwise fun p q ↦ p.1 ≠ q.1 := List.pairwise_map.mp h.ids
    refine hapart.imp fun {p q} hne place hp hq ↦ ?_
    obtain ⟨x, hx, rfl⟩ := List.mem_map.mp hp
    obtain ⟨y, hy, heq⟩ := List.mem_map.mp hq
    obtain ⟨_, -, rfl⟩ := List.mem_map.mp hx
    obtain ⟨_, -, rfl⟩ := List.mem_map.mp hy
    exact hne (Prod.mk.inj heq).1.symm

/-! ## The size -/

/-- A connection whose entries are replaced by no larger ones. -/
theorem totalSize_put_le {cache : Cache V} {id : Text} {c : ConnCache V}
    (h : (c.e.map (·.2.s)).sum ≤ ((cache.lookup id).map fun old ↦ (old.e.map (·.2.s)).sum).getD 0) :
    totalSize (Records.put id c cache) ≤ totalSize cache := by
  have hsum := Records.sum_put (fun c : ConnCache V ↦ (c.e.map (·.2.s)).sum) id c cache
  unfold totalSize
  omega

theorem totalSize_openConn_le (cache : Cache V) (id fp : Text) : totalSize (openConn cache id fp) ≤ totalSize cache := by
  unfold openConn
  split_ifs
  · exact le_rfl
  · exact totalSize_put_le (Nat.zero_le _)

theorem totalSize_clearConn_le (cache : Cache V) (id : Text) : totalSize (clearConn cache id) ≤ totalSize cache := by
  unfold clearConn
  cases cache.lookup id with
  | none => exact le_rfl
  | some _ => exact (List.filter_sublist.map _).sum_le_sum fun _ _ ↦ Nat.zero_le _

theorem totalSize_touch_le (cache : Cache V) (id key : Text) (now : ℚ) :
    totalSize (touch cache id key now) ≤ totalSize cache := by
  unfold touch
  cases hlookup : cache.lookup id with
  | none => exact le_rfl
  | some c =>
    dsimp only
    cases hentry : c.e.lookup key with
    | none => exact le_rfl
    | some e =>
      have hsum := Records.sum_put CacheEntry.s key { e with used := now } c.e
      rw [hentry, Option.map_some, Option.getD_some] at hsum
      refine totalSize_put_le ?_
      rw [hlookup, Option.map_some, Option.getD_some]
      dsimp only at hsum ⊢
      omega

theorem totalSize_markStale_le (cache : Cache V) (id : Text) (pred : Text → Bool) :
    totalSize (markStale cache id pred) ≤ totalSize cache := by
  unfold markStale
  cases hlookup : cache.lookup id with
  | none => exact le_rfl
  | some c =>
    refine totalSize_put_le ?_
    rw [hlookup, Option.map_some, Option.getD_some]
    dsimp only
    rw [List.map_map]
    refine le_of_eq (congrArg List.sum (List.map_congr_left fun p _ ↦ ?_))
    rw [Function.comp_apply]
    dsimp only
    split_ifs <;> rfl

theorem Keyed.openConn {cache : Cache V} (h : Keyed cache) (id fp : Text) : Keyed (openConn cache id fp) := by
  unfold MetaCache.openConn
  split_ifs
  · exact h
  · exact h.put id .nil

theorem Keyed.clearConn {cache : Cache V} (h : Keyed cache) (id : Text) : Keyed (clearConn cache id) := by
  unfold MetaCache.clearConn
  cases cache.lookup id with
  | none => exact h
  | some _ => exact ⟨nodup_without id h.ids, fun c hc ↦ h.keys c (List.mem_of_mem_filter hc)⟩

theorem Keyed.touch {cache : Cache V} (h : Keyed cache) (id key : Text) (now : ℚ) :
    Keyed (touch cache id key now) := by
  unfold MetaCache.touch
  cases hlookup : cache.lookup id with
  | none => exact h
  | some c =>
    dsimp only
    cases c.e.lookup key with
    | none => exact h
    | some e => exact h.put id (Records.nodup_put (h.of_lookup hlookup) key _)

theorem Keyed.markStale {cache : Cache V} (h : Keyed cache) (id : Text) (pred : Text → Bool) :
    Keyed (markStale cache id pred) := by
  unfold MetaCache.markStale
  cases hlookup : cache.lookup id with
  | none => exact h
  | some c =>
    refine h.put id ?_
    dsimp only
    rw [List.map_map]
    exact h.of_lookup hlookup

/-! ## Eviction -/

/-- No entry of another connection is at the place. -/
theorem filter_allEntries {cache : Cache V} {cid : Text} (h : cid ∉ cache.map (·.1)) (k : Text) :
    (allEntries cache).filter (·.1 ≠ (cid, k)) = allEntries cache := by
  refine List.filter_eq_self.mpr fun x hx ↦ decide_eq_true fun hplace ↦ h ?_
  obtain ⟨cc, hcc, -⟩ := mem_allEntries.mp hx
  rw [hplace] at hcc
  exact List.mem_map.mpr ⟨_, hcc, rfl⟩

theorem allEntries_removeEntry {next : Cache V} (h : Keyed next) (cid k : Text) :
    allEntries (removeEntry next cid k) = (allEntries next).filter (·.1 ≠ (cid, k)) := by
  unfold removeEntry
  cases hlookup : next.lookup cid with
  | none => exact (filter_allEntries (Records.lookup_eq_none_iff.mp hlookup) k).symm
  | some cc =>
    obtain ⟨before, after, hnext, hbefore, hput⟩ := Records.put_of_lookup_some hlookup
    have hafter : cid ∉ after.map (·.1) := by
      have hids := h.ids
      rw [hnext, List.map_append, List.map_cons] at hids
      exact (List.nodup_cons.mp (List.nodup_append.mp hids).2.1).1
    have happend (first : Cache V) (c : ConnCache V) : allEntries (first ++ (cid, c) :: after) =
        allEntries first ++ (c.e.map fun (k, e) ↦ ((cid, k), e)) ++ allEntries after := by
      unfold allEntries
      rw [List.flatMap_append, List.flatMap_cons, List.append_assoc]
    have hcell : ((without k cc.e).map fun (k, e) ↦ (((cid, k), e) : Victim V)) =
        (cc.e.map fun (k, e) ↦ (((cid, k), e) : Victim V)).filter (·.1 ≠ (cid, k)) := by
      rw [without, List.filter_map]
      refine congrArg _ (List.filter_congr fun p _ ↦ ?_)
      simp
    dsimp only
    rw [hput, happend, hcell, hnext, happend, List.filter_append, List.filter_append, filter_allEntries hbefore,
      filter_allEntries hafter]

theorem Keyed.removeEntry {next : Cache V} (h : Keyed next) (cid k : Text) : Keyed (removeEntry next cid k) := by
  unfold MetaCache.removeEntry
  cases hlookup : next.lookup cid with
  | none => exact h
  | some cc => exact h.put cid (nodup_without k (h.of_lookup hlookup))

theorem evictFrom_spec {cap total : ℕ} {victims : List (Victim V)} {next : Cache V} (h : Keyed next) :
    Keyed (evictFrom cap total victims next) ∧
      allEntries (evictFrom cap total victims next) = (allEntries next).filter
        fun x ↦ x.1 ∉ (Eviction.evicted (fun x : Victim V ↦ x.2.s) cap total victims).map (·.1) := by
  induction victims generalizing total next with
  | nil => exact ⟨h, (List.filter_eq_self.mpr fun _ _ ↦ rfl).symm⟩
  | cons victim victims ih =>
    obtain ⟨⟨cid, k⟩, e⟩ := victim
    rw [evictFrom, Eviction.evicted]
    split_ifs with hfits
    · exact ⟨h, (List.filter_eq_self.mpr fun _ _ ↦ rfl).symm⟩
    · obtain ⟨hkeyed, hentries⟩ := @ih (total - e.s) _ (h.removeEntry cid k)
      refine ⟨hkeyed, ?_⟩
      rw [hentries, allEntries_removeEntry h, List.filter_filter]
      refine List.filter_congr fun x _ ↦ ?_
      rw [← Bool.decide_and]
      exact decide_eq_decide.mpr (by rw [List.map_cons, List.mem_cons, not_or, and_comm])

/-- An entry of the cache that is in its place no more, other than one that was replaced. -/
def Evicted (cache : Cache V) (id key : Text) (after : Cache V) (x : Victim V) : Prop :=
  x ∈ allEntries cache ∧ x.1 ≠ (id, key) ∧ x ∉ allEntries after

/-- What a value that is stored leads to. -/
structure Stored (cache : Cache V) (id key : Text) (value : V) (cap : ℕ) (after : Cache V) : Prop where
  present : ∃ c e, after.lookup id = some c ∧ c.e.lookup key = some e ∧ e.v = value ∧ e.stale = false
  survivors : ∀ x ∈ allEntries after, x.1 ≠ (id, key) → x ∈ allEntries cache
  leastRecent : ∀ x, Evicted cache id key after x → ∀ y ∈ allEntries after, y.1 ≠ (id, key) → x.2.used ≤ y.2.used
  needed : ∃ gone : List (Victim V), (∀ x, x ∈ gone ↔ Evicted cache id key after x) ∧ (gone.map (·.1)).Nodup ∧
    ∀ before x later, gone = before ++ x :: later →
      cap < totalSize after + ((x :: later).map (·.2.s)).sum

section Put

variable {jsonLength : V → ℕ} {cache : Cache V} {id key : Text} {value : V} {now : ℚ} {c : ConnCache V} {cap : ℕ}

theorem Keyed.withEntry (h : Keyed cache) (hlookup : cache.lookup id = some c) :
    Keyed (withEntry jsonLength cache id c key value now) :=
  h.put id (Records.nodup_put (h.of_lookup hlookup) key _)

/-- The new entry. -/
def newEntry (jsonLength : V → ℕ) (key : Text) (value : V) (now : ℚ) : CacheEntry V :=
  ⟨value, now, now, entrySize jsonLength key value, false⟩

theorem mem_withEntry (h : Keyed cache) (hlookup : cache.lookup id = some c) {x : Victim V} :
    x ∈ allEntries (withEntry jsonLength cache id c key value now) ↔
      x = ((id, key), newEntry jsonLength key value now) ∨ x ∈ allEntries cache ∧ x.1 ≠ (id, key) := by
  obtain ⟨⟨cid, k⟩, e⟩ := x
  have hown {c' : ConnCache V} : (id, c') ∈ cache ↔ c' = c := by
    rw [← Records.lookup_eq_some_iff h.ids, hlookup, Option.some.injEq, eq_comm]
  rw [mem_allEntries, mem_allEntries]
  unfold withEntry
  simp only [Records.mem_put_iff h.ids, Prod.mk.injEq]
  by_cases hcid : cid = id
  · subst hcid
    simp only [true_and, ne_eq, not_true_eq_false, and_false, or_false, exists_eq_left, hown]
    have hplace : ¬ (cid, k) = (cid, key) ↔ k ≠ key := by simp
    rw [Records.mem_put_iff (h.of_lookup hlookup), Prod.mk.injEq, hplace]
    exact Iff.rfl
  · simp [hcid]

end Put

section Evict

variable {next : Cache V} (h : Keyed next) {id key : Text} {e : CacheEntry V}
  (hentry : ((id, key), e) ∈ allEntries next) (cap : ℕ)

theorem mem_victimsOf {x : Victim V} : x ∈ victimsOf next id key ↔ x ∈ allEntries next ∧ x.1 ≠ (id, key) := by
  rw [victimsOf, (List.perm_insertionSort _ _).mem_iff, List.mem_filter, decide_eq_true_eq]

theorem nodup_victimsOf (h : Keyed next) : ((victimsOf next id key).map (·.1)).Nodup := by
  have hperm := (List.perm_insertionSort (fun a b : Victim V ↦ a.2.used ≤ b.2.used)
    ((allEntries next).filter (·.1 ≠ (id, key)))).map (·.1)
  exact hperm.nodup_iff.mpr ((List.filter_sublist.map _).nodup (nodup_places h))

theorem sorted_victimsOf (next : Cache V) (id key : Text) :
    (victimsOf next id key).Pairwise fun a b ↦ a.2.used ≤ b.2.used := by
  have htotal : Std.Total fun a b : Victim V ↦ a.2.used ≤ b.2.used := ⟨fun a b ↦ le_total _ _⟩
  have htrans : IsTrans (Victim V) fun a b ↦ a.2.used ≤ b.2.used := ⟨fun _ _ _ ↦ le_trans⟩
  exact List.pairwise_insertionSort _ _

/-- An entry is known by its place. -/
theorem eq_of_place {cache : Cache V} (h : Keyed cache) {x y : Victim V} (hx : x ∈ allEntries cache)
    (hy : y ∈ allEntries cache) (hplace : x.1 = y.1) : x = y :=
  List.inj_on_of_nodup_map (nodup_places h) hx hy hplace

include h hentry

/-- The new entry and the victims are all that there is. -/
theorem perm_victimsOf : (allEntries next).Perm (((id, key), e) :: victimsOf next id key) := by
  have hleft : (allEntries next).Nodup := (nodup_places h).of_map
  have hright : (((id, key), e) :: victimsOf next id key).Nodup :=
    List.nodup_cons.mpr ⟨fun hmem ↦ (mem_victimsOf.mp hmem).2 rfl, (nodup_victimsOf h).of_map⟩
  refine (List.perm_ext_iff_of_nodup hleft hright).mpr fun x ↦ ?_
  rw [List.mem_cons, mem_victimsOf]
  constructor
  · intro hx
    by_cases hplace : x.1 = (id, key)
    · exact .inl (eq_of_place h hx hentry hplace)
    · exact .inr ⟨hx, hplace⟩
  · intro hx
    exact hx.elim (fun heq ↦ heq ▸ hentry) (·.1)

/-- The loop leaves the new entry and the last of the victims, of which it has taken the first as long as the rest did
not fit. -/
theorem evictFrom_victimsOf (hsize : e.s ≤ cap) :
    ∃ gone kept, victimsOf next id key = gone ++ kept ∧
      Keyed (evictFrom cap (totalSize next) (victimsOf next id key) next) ∧
      (allEntries (evictFrom cap (totalSize next) (victimsOf next id key) next)).Perm (((id, key), e) :: kept) ∧
      totalSize (evictFrom cap (totalSize next) (victimsOf next id key) next) ≤ cap ∧
      (∀ x ∈ gone, ∀ y ∈ kept, x.2.used ≤ y.2.used) ∧
      ∀ before x later, gone = before ++ x :: later →
        cap < totalSize (evictFrom cap (totalSize next) (victimsOf next id key) next) +
          ((x :: later).map (·.2.s)).sum := by
  have hplaces : ((victimsOf next id key).map (·.1)).Nodup := nodup_victimsOf h
  set gone := Eviction.evicted (fun x : Victim V ↦ x.2.s) cap (totalSize next) (victimsOf next id key) with hgone
  obtain ⟨kept, hsplit, hkept⟩ : ∃ kept, victimsOf next id key = gone ++ kept ∧
      ∀ x ∈ victimsOf next id key, x.1 ∉ gone.map (·.1) ↔ x ∈ kept := Eviction.evicted_split _ cap _ hplaces
  obtain ⟨hkeyed, hentries⟩ := @evictFrom_spec _ cap (totalSize next) (victimsOf next id key) _ h
  generalize evictFrom cap (totalSize next) (victimsOf next id key) next = after at hkeyed hentries ⊢
  have hperm : (allEntries after).Perm (((id, key), e) :: kept) := by
    have hright : (((id, key), e) :: kept).Nodup := by
      have hall := (perm_victimsOf h hentry).nodup_iff.mp (nodup_places h).of_map
      rw [hsplit] at hall
      exact hall.sublist ((List.sublist_append_right gone kept).cons_cons _)
    refine (List.perm_ext_iff_of_nodup (nodup_places hkeyed).of_map hright).mpr fun x ↦ ?_
    rw [hentries, List.mem_filter, decide_eq_true_eq, (perm_victimsOf h hentry).mem_iff, List.mem_cons, List.mem_cons]
    constructor
    · intro ⟨hx, hnot⟩
      exact hx.imp (fun heq ↦ heq) fun hx ↦ (hkept x hx).mp hnot
    · intro hx
      rcases hx with rfl | hx
      · refine ⟨.inl rfl, fun hmem ↦ ?_⟩
        obtain ⟨y, hy, hplace⟩ := List.mem_map.mp hmem
        have hvictim : y ∈ victimsOf next id key := by
          rw [hsplit]
          exact List.mem_append_left _ hy
        exact (mem_victimsOf.mp hvictim).2 hplace
      · have hvictim : x ∈ victimsOf next id key := by
          rw [hsplit]
          exact List.mem_append_right _ hx
        exact ⟨.inr hvictim, (hkept x hvictim).mpr hx⟩
  have htotal : totalSize next = e.s + (gone.map (·.2.s)).sum + (kept.map (·.2.s)).sum := by
    rw [totalSize_eq, ((perm_victimsOf h hentry).map _).sum_eq, List.map_cons, List.sum_cons, hsplit, List.map_append,
      List.sum_append, Nat.add_assoc]
  have hafter : totalSize after = e.s + (kept.map (·.2.s)).sum := by
    rw [totalSize_eq, (hperm.map _).sum_eq, List.map_cons, List.sum_cons]
  refine ⟨gone, kept, hsplit, hkeyed, hperm, ?_, fun x hx y hy ↦ ?_, fun before x later hbefore ↦ ?_⟩
  · have hrest : totalSize next - ((victimsOf next id key).map (·.2.s)).sum ≤ cap := by
      rw [htotal, hsplit, List.map_append, List.sum_append]
      omega
    have hfits := Eviction.evicted_fits (fun x : Victim V ↦ x.2.s) cap hrest
    rw [← hgone] at hfits
    omega
  · exact Eviction.evicted_le (fun x : Victim V ↦ x.2.s) cap (sorted_victimsOf next id key) hsplit hx hy
  · have hneeded := Eviction.evicted_needed (fun x : Victim V ↦ x.2.s) cap (hgone.symm.trans hbefore)
    rw [hbefore, List.map_append, List.sum_append] at htotal
    omega

end Evict

section Put

variable {jsonLength : V → ℕ} {cache : Cache V} {id key : Text} {value : V} {now : ℚ} {cap : ℕ}

/-- What is stored, where the victims are split into those that go and those that stay. -/
theorem stored_of_split (h : Keyed cache) {c : ConnCache V} (hlookup : cache.lookup id = some c) {after : Cache V}
    {gone kept : List (Victim V)}
    (hsplit : victimsOf (withEntry jsonLength cache id c key value now) id key = gone ++ kept) (hkeyed : Keyed after)
    (hperm : (allEntries after).Perm (((id, key), newEntry jsonLength key value now) :: kept))
    (hleast : ∀ x ∈ gone, ∀ y ∈ kept, x.2.used ≤ y.2.used)
    (hneeded : ∀ before x later, gone = before ++ x :: later →
      cap < totalSize after + ((x :: later).map (·.2.s)).sum) : Stored cache id key value cap after := by
  have hvictim (x : Victim V) : x ∈ gone ++ kept ↔ x ∈ allEntries cache ∧ x.1 ≠ (id, key) := by
    rw [← hsplit, mem_victimsOf, mem_withEntry h hlookup]
    constructor
    · intro ⟨hx, hplace⟩
      exact hx.resolve_left fun heq ↦ hplace (congrArg Prod.fst heq)
    · intro hx
      exact ⟨.inr hx, hx.2⟩
  have hkept {x : Victim V} (hx : x ∈ allEntries after) (hplace : x.1 ≠ (id, key)) : x ∈ kept :=
    (List.mem_cons.mp (hperm.mem_iff.mp hx)).resolve_left fun heq ↦ hplace (congrArg Prod.fst heq)
  have hnodup : ((gone ++ kept).map (·.1)).Nodup := hsplit ▸ nodup_victimsOf (h.withEntry hlookup)
  have hevicted (x : Victim V) : x ∈ gone ↔ Evicted cache id key after x := by
    constructor
    · intro hx
      obtain ⟨hcache, hplace⟩ := (hvictim x).mp (List.mem_append_left _ hx)
      refine ⟨hcache, hplace, fun hafter ↦ ?_⟩
      rw [List.map_append, List.nodup_append] at hnodup
      exact hnodup.2.2 _ (List.mem_map_of_mem hx) _ (List.mem_map_of_mem (hkept hafter hplace)) rfl
    · intro ⟨hcache, hplace, hnot⟩
      refine (List.mem_append.mp ((hvictim x).mpr ⟨hcache, hplace⟩)).resolve_right fun hx ↦ hnot ?_
      exact hperm.mem_iff.mpr (.tail _ hx)
  constructor
  · obtain ⟨cc, hcc, he⟩ := mem_allEntries.mp (hperm.mem_iff.mpr (.head _))
    exact ⟨cc, _, (Records.lookup_eq_some_iff hkeyed.ids).mpr hcc,
      (Records.lookup_eq_some_iff (hkeyed.keys _ hcc)).mpr he, rfl, rfl⟩
  · intro x hx hplace
    exact ((hvictim x).mp (List.mem_append_right _ (hkept hx hplace))).1
  · intro x hx y hy hplace
    exact hleast x ((hevicted x).mpr hx) y (hkept hy hplace)
  · rw [List.map_append, List.nodup_append] at hnodup
    exact ⟨gone, hevicted, hnodup.1, hneeded⟩

/-- A value is refused exactly if its connection is not there or it is too large by itself; one that is not refused is
stored, and what is stored then fits. -/
theorem putEntry_spec (h : Keyed cache) (hfits : totalSize cache ≤ cap) :
    Keyed (putEntry jsonLength cache id key value now cap).1 ∧
      totalSize (putEntry jsonLength cache id key value now cap).1 ≤ cap ∧
      ((putEntry jsonLength cache id key value now cap).2 = false ↔
        cache.lookup id = none ∨ cap < entrySize jsonLength key value) ∧
      ((putEntry jsonLength cache id key value now cap).2 = false →
        (putEntry jsonLength cache id key value now cap).1 = cache) ∧
      ((putEntry jsonLength cache id key value now cap).2 = true →
        Stored cache id key value cap (putEntry jsonLength cache id key value now cap).1) := by
  unfold putEntry
  cases hlookup : cache.lookup id with
  | none => exact ⟨h, hfits, iff_of_true rfl (.inl rfl), fun _ ↦ rfl, nofun⟩
  | some c =>
    dsimp only
    split_ifs with hlarge hsmall
    · exact ⟨h, hfits, iff_of_true rfl (.inr hlarge), fun _ ↦ rfl, nofun⟩
    · have hstored : Stored cache id key value cap (withEntry jsonLength cache id c key value now) := by
        refine stored_of_split h hlookup (List.nil_append _).symm (h.withEntry hlookup)
          (perm_victimsOf (h.withEntry hlookup) ((mem_withEntry h hlookup).mpr (.inl rfl))) nofun ?_
        intro before x later hnil
        exact absurd hnil.symm (List.append_ne_nil_of_right_ne_nil _ (List.cons_ne_nil _ _))
      exact ⟨h.withEntry hlookup, hsmall, iff_of_false nofun (by simp [hlarge]), nofun, fun _ ↦ hstored⟩
    · obtain ⟨gone, kept, hsplit, hkeyed, hperm, hfits', hleast, hneeded⟩ :=
        evictFrom_victimsOf (h.withEntry hlookup) ((mem_withEntry h hlookup).mpr (.inl rfl)) cap (not_lt.mp hlarge)
      exact ⟨hkeyed, hfits', iff_of_false nofun (by simp [hlarge]), nofun,
        fun _ ↦ stored_of_split h hlookup hsplit hkeyed hperm hleast hneeded⟩

end Put

/-! ## The connections that are open -/

section Ids

variable {cache : Cache V} {id key : Text}

theorem ids_openConn {other fp : Text} :
    other ∈ (openConn cache id fp).map (·.1) ↔ other ∈ cache.map (·.1) ∨ other = id := by
  unfold openConn
  split_ifs with hsame
  · obtain ⟨c, hc, -⟩ := Option.map_eq_some_iff.mp hsame
    have hid : id ∈ cache.map (·.1) := List.mem_map_of_mem (Records.mem_of_lookup hc)
    exact (or_iff_left_of_imp fun heq ↦ heq ▸ hid).symm
  · rw [Records.mem_keys_put, or_comm]

theorem ids_clearConn {other : Text} :
    other ∈ (clearConn cache id).map (·.1) ↔ other ∈ cache.map (·.1) ∧ other ≠ id := by
  unfold clearConn
  cases hlookup : cache.lookup id with
  | none =>
    have hnot : id ∉ cache.map (·.1) := Records.lookup_eq_none_iff.mp hlookup
    exact ⟨fun hmem ↦ ⟨hmem, fun heq ↦ hnot (heq ▸ hmem)⟩, fun hmem ↦ hmem.1⟩
  | some _ =>
    unfold without
    simp only [List.mem_map, List.mem_filter, decide_eq_true_eq]
    constructor
    · intro ⟨p, ⟨hp, hne⟩, heq⟩
      exact ⟨⟨p, hp, heq⟩, heq ▸ hne⟩
    · intro ⟨⟨p, hp, heq⟩, hne⟩
      exact ⟨p, ⟨hp, heq ▸ hne⟩, heq⟩

theorem ids_touch {now : ℚ} : (touch cache id key now).map (·.1) = cache.map (·.1) := by
  unfold touch
  cases hlookup : cache.lookup id with
  | none => rfl
  | some c =>
    dsimp only
    cases c.e.lookup key with
    | none => rfl
    | some e => exact Records.keys_put_of_lookup hlookup _

theorem ids_markStale {pred : Text → Bool} : (markStale cache id pred).map (·.1) = cache.map (·.1) := by
  unfold markStale
  cases hlookup : cache.lookup id with
  | none => rfl
  | some c => exact Records.keys_put_of_lookup hlookup _

theorem ids_evictFrom {cap total : ℕ} {victims : List (Victim V)} :
    (evictFrom cap total victims cache).map (·.1) = cache.map (·.1) := by
  induction victims generalizing cache total with
  | nil => rfl
  | cons victim victims ih =>
    obtain ⟨⟨cid, k⟩, e⟩ := victim
    rw [evictFrom]
    split_ifs
    · rfl
    · rw [ih, removeEntry]
      cases hlookup : cache.lookup cid with
      | none => rfl
      | some c => exact Records.keys_put_of_lookup hlookup _

theorem ids_putEntry {jsonLength : V → ℕ} {value : V} {now : ℚ} {cap : ℕ} :
    (putEntry jsonLength cache id key value now cap).1.map (·.1) = cache.map (·.1) := by
  unfold putEntry
  cases hlookup : cache.lookup id with
  | none => rfl
  | some c =>
    have hnext : (withEntry jsonLength cache id c key value now).map (·.1) = cache.map (·.1) :=
      Records.keys_put_of_lookup hlookup _
    dsimp only
    split_ifs
    · rfl
    · exact hnext
    · exact ids_evictFrom.trans hnext

end Ids

end Squaero.Front.MetaCache
