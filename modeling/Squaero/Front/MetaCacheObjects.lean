import Squaero.Front.MetaCache

/-!
# The objects of the introspection cache

The functions of `frontend/src/utils/metaCache.ts` on the objects they read, copy and assign to. Each of them leads from
objects that hold a cache to objects that hold the cache that `MetaCache` has for it, and writes to no object that was
there before.
-/

namespace Squaero.Front.MetaCache

open Squaero.Lib

/-- A connection's object, with the object of its entries. -/
structure ConnObject where
  fp : Text
  e : ℕ

/-- The objects of each kind by their number. The values of entries are not looked into. -/
structure Heap (V : Type) where
  caches : List (List (Text × ℕ))
  conns : List ConnObject
  tables : List (List (Text × ℕ))
  entries : List (CacheEntry V)

namespace Heap

variable {V : Type} (heap : Heap V)

def cache (root : ℕ) : List (Text × ℕ) := heap.caches.getD root []

def conn (ref : ℕ) : ConnObject := heap.conns.getD ref ⟨[], 0⟩

def table (ref : ℕ) : List (Text × ℕ) := heap.tables.getD ref []

def newCache (cache : List (Text × ℕ)) : Heap V × ℕ :=
  ({ heap with caches := heap.caches ++ [cache] }, heap.caches.length)

def newConn (conn : ConnObject) : Heap V × ℕ := ({ heap with conns := heap.conns ++ [conn] }, heap.conns.length)

def newTable (table : List (Text × ℕ)) : Heap V × ℕ :=
  ({ heap with tables := heap.tables ++ [table] }, heap.tables.length)

def newEntry (entry : CacheEntry V) : Heap V × ℕ :=
  ({ heap with entries := heap.entries ++ [entry] }, heap.entries.length)

def setCache (ref : ℕ) (cache : List (Text × ℕ)) : Heap V := { heap with caches := heap.caches.set ref cache }

def setTable (ref : ℕ) (table : List (Text × ℕ)) : Heap V := { heap with tables := heap.tables.set ref table }

def openConn (root : ℕ) (id fp : Text) : Heap V × ℕ :=
  let cache := heap.cache root
  if (cache.lookup id).map (fun c ↦ (heap.conn c).fp) = some fp then (heap, root)
  else
    let (heap, e) := heap.newTable []
    let (heap, c) := heap.newConn ⟨fp, e⟩
    heap.newCache (Records.put id c cache)

def clearConn (root : ℕ) (id : Text) : Heap V × ℕ :=
  match (heap.cache root).lookup id with
  | none => (heap, root)
  | some _ =>
    let (heap, next) := heap.newCache (heap.cache root)
    (heap.setCache next (without id (heap.cache next)), next)

def touch (root : ℕ) (id key : Text) (now : ℚ) : Heap V × ℕ :=
  let cache := heap.cache root
  match cache.lookup id with
  | none => (heap, root)
  | some c =>
    let c := heap.conn c
    let entries := heap.table c.e
    match (entries.lookup key).bind (heap.entries[·]?) with
    | none => (heap, root)
    | some e =>
      let (heap, e) := heap.newEntry { e with used := now }
      let (heap, e) := heap.newTable (Records.put key e entries)
      let (heap, c) := heap.newConn { c with e := e }
      heap.newCache (Records.put id c cache)

/-- The entries of a cache with their places. -/
def allEntries (root : ℕ) : List (Victim V) :=
  (heap.cache root).flatMap fun (cid, cc) ↦
    (heap.table (heap.conn cc).e).filterMap fun (k, e) ↦ (heap.entries[e]?).map fun e ↦ ((cid, k), e)

def totalSize (root : ℕ) : ℕ := ((heap.allEntries root).map (·.2.s)).sum

def removeEntry (next : ℕ) (cid k : Text) : Heap V :=
  match (heap.cache next).lookup cid with
  | none => heap
  | some cc =>
    let cc := heap.conn cc
    let (heap, e) := heap.newTable (heap.table cc.e)
    let heap := heap.setTable e (without k (heap.table e))
    let (heap, cc) := heap.newConn { cc with e := e }
    heap.setCache next (Records.put cid cc (heap.cache next))

/-- The loop over the victims, which assigns to the new cache. -/
def evictFrom (next cap : ℕ) : ℕ → List (Victim V) → Heap V → Heap V
  | _, [], heap => heap
  | total, ((cid, k), e) :: victims, heap =>
    if total ≤ cap then heap else evictFrom next cap (total - e.s) victims (heap.removeEntry next cid k)

def victimsOf (next : ℕ) (id key : Text) : List (Victim V) :=
  ((heap.allEntries next).filter (·.1 ≠ (id, key))).insertionSort fun a b ↦ a.2.used ≤ b.2.used

def putEntry (jsonLength : V → ℕ) (root : ℕ) (id key : Text) (value : V) (now : ℚ) (cap : ℕ) :
    (Heap V × ℕ) × Bool :=
  let cache := heap.cache root
  let s := entrySize jsonLength key value
  match cache.lookup id with
  | none => ((heap, root), false)
  | some c =>
    if cap < s then ((heap, root), false)
    else
      let c := heap.conn c
      let entries := heap.table c.e
      let (heap, e) := heap.newEntry ⟨value, now, now, s, false⟩
      let (heap, e) := heap.newTable (Records.put key e entries)
      let (heap, c) := heap.newConn { c with e := e }
      let (heap, next) := heap.newCache (Records.put id c cache)
      let total := heap.totalSize next
      if total ≤ cap then ((heap, next), true)
      else ((evictFrom next cap total (heap.victimsOf next id key) heap, next), true)

/-- The entries for the new record, with a new object for each that is marked. -/
def markEntries (pred : Text → Bool) : List (Text × ℕ) → Heap V → Heap V × List (Text × ℕ)
  | [], heap => (heap, [])
  | (k, v) :: rest, heap =>
    let (heap, v) :=
      match heap.entries[v]? with
      | some entry => if pred k then heap.newEntry { entry with stale := true } else (heap, v)
      | none => (heap, v)
    let (heap, rest) := markEntries pred rest heap
    (heap, (k, v) :: rest)

def markStale (root : ℕ) (id : Text) (pred : Text → Bool) : Heap V × ℕ :=
  let cache := heap.cache root
  match cache.lookup id with
  | none => (heap, root)
  | some c =>
    let c := heap.conn c
    let (heap, e) := markEntries pred (heap.table c.e) heap
    let (heap, e) := heap.newTable e
    let (heap, c) := heap.newConn { c with e := e }
    heap.newCache (Records.put id c cache)

end Heap

/-! ## Objects that hold a cache -/

section Holds

variable {V : Type}

abbrev HoldsEntries (heap : Heap V) (table : List (Text × ℕ)) (e : List (Text × CacheEntry V)) : Prop :=
  Records.Related (fun ref entry ↦ heap.entries[ref]? = some entry) table e

def HoldsConn (heap : Heap V) (ref : ℕ) (c : ConnCache V) : Prop :=
  ∃ e table, heap.conns[ref]? = some ⟨c.fp, e⟩ ∧ heap.tables[e]? = some table ∧ HoldsEntries heap table c.e

abbrev HoldsConns (heap : Heap V) (record : List (Text × ℕ)) (cache : Cache V) : Prop :=
  Records.Related (HoldsConn heap) record cache

def Holds (heap : Heap V) (root : ℕ) (cache : Cache V) : Prop :=
  ∃ record, heap.caches[root]? = some record ∧ HoldsConns heap record cache

/-- Every object that was there is as it was. -/
structure Keeps (heap later : Heap V) : Prop where
  caches : heap.caches <+: later.caches
  conns : heap.conns <+: later.conns
  tables : heap.tables <+: later.tables
  entries : heap.entries <+: later.entries

theorem Keeps.refl (heap : Heap V) : Keeps heap heap :=
  ⟨List.prefix_rfl, List.prefix_rfl, List.prefix_rfl, List.prefix_rfl⟩

theorem Keeps.trans {heap later last : Heap V} (h : Keeps heap later) (h' : Keeps later last) : Keeps heap last :=
  ⟨h.caches.trans h'.caches, h.conns.trans h'.conns, h.tables.trans h'.tables, h.entries.trans h'.entries⟩

theorem getElem?_of_prefix {α : Type} {items later : List α} (h : items <+: later) {i : ℕ} {item : α}
    (hitem : items[i]? = some item) : later[i]? = some item := by
  obtain ⟨more, rfl⟩ := h
  rw [List.getElem?_append_left (List.getElem?_eq_some_iff.mp hitem).1, hitem]

theorem HoldsEntries.mono {heap later : Heap V} {table : List (Text × ℕ)} {e : List (Text × CacheEntry V)}
    (h : HoldsEntries heap table e) (hkeeps : heap.entries <+: later.entries) : HoldsEntries later table e :=
  Records.Related.imp h fun _ _ hentry ↦ getElem?_of_prefix hkeeps hentry

theorem HoldsConn.mono {heap later : Heap V} {ref : ℕ} {c : ConnCache V} (h : HoldsConn heap ref c)
    (hkeeps : Keeps heap later) : HoldsConn later ref c := by
  obtain ⟨e, table, hconn, htable, hentries⟩ := h
  exact ⟨e, table, getElem?_of_prefix hkeeps.conns hconn, getElem?_of_prefix hkeeps.tables htable,
    hentries.mono hkeeps.entries⟩

theorem HoldsConns.mono {heap later : Heap V} {record : List (Text × ℕ)} {cache : Cache V}
    (h : HoldsConns heap record cache) (hkeeps : Keeps heap later) : HoldsConns later record cache :=
  Records.Related.imp h fun _ _ hconn ↦ hconn.mono hkeeps

theorem Holds.mono {heap later : Heap V} {root : ℕ} {cache : Cache V} (h : Holds heap root cache)
    (hkeeps : Keeps heap later) : Holds later root cache := by
  obtain ⟨record, hrecord, hconns⟩ := h
  exact ⟨record, getElem?_of_prefix hkeeps.caches hrecord, hconns.mono hkeeps⟩

theorem Holds.cache_eq {heap : Heap V} {root : ℕ} {cache : Cache V} (h : Holds heap root cache) :
    HoldsConns heap (heap.cache root) cache := by
  obtain ⟨record, hrecord, hconns⟩ := h
  rwa [Heap.cache, List.getD_eq_getElem?_getD, hrecord, Option.getD_some]

theorem HoldsConn.read {heap : Heap V} {ref : ℕ} {c : ConnCache V} (h : HoldsConn heap ref c) :
    (heap.conn ref).fp = c.fp ∧ HoldsEntries heap (heap.table (heap.conn ref).e) c.e := by
  obtain ⟨e, table, hconn, htable, hentries⟩ := h
  have hread : heap.conn ref = ⟨c.fp, e⟩ := by
    rw [Heap.conn, List.getD_eq_getElem?_getD, hconn, Option.getD_some]
  rw [hread, Heap.table, List.getD_eq_getElem?_getD, htable, Option.getD_some]
  exact ⟨rfl, hentries⟩

/-- A connection's object is there exactly if the connection is. -/
theorem HoldsConns.lookup {heap : Heap V} {record : List (Text × ℕ)} {cache : Cache V}
    (h : HoldsConns heap record cache) (id : Text) :
    record.lookup id = none ∧ cache.lookup id = none ∨
      ∃ ref c, record.lookup id = some ref ∧ cache.lookup id = some c ∧ (heap.conn ref).fp = c.fp ∧
        HoldsEntries heap (heap.table (heap.conn ref).e) c.e := by
  refine (Records.Related.lookup h id).imp_right fun ⟨ref, c, href, hc, hholds⟩ ↦ ?_
  exact ⟨ref, c, href, hc, hholds.read⟩

theorem HoldsEntries.lookup {heap : Heap V} {table : List (Text × ℕ)} {e : List (Text × CacheEntry V)}
    (h : HoldsEntries heap table e) (key : Text) :
    (table.lookup key).bind (heap.entries[·]?) = e.lookup key := by
  rcases Records.Related.lookup h key with ⟨href, hentry⟩ | ⟨ref, entry, href, hentry, hholds⟩
  · rw [href, hentry]
    rfl
  · rw [href, hentry, Option.bind_some, hholds]

theorem HoldsEntries.victims {heap : Heap V} {table : List (Text × ℕ)} {e : List (Text × CacheEntry V)}
    (h : HoldsEntries heap table e) (cid : Text) :
    (table.filterMap fun (k, ref) ↦ (heap.entries[ref]?).map fun e ↦ (((cid, k), e) : Victim V)) =
      e.map fun (k, e) ↦ ((cid, k), e) := by
  induction h with
  | nil => rfl
  | @cons p q table e hpair _ ih =>
    rw [List.filterMap_cons, List.map_cons, ih]
    simp [hpair.1, hpair.2]

theorem HoldsConns.allEntries {heap : Heap V} {root : ℕ} {cache : Cache V}
    (h : HoldsConns heap (heap.cache root) cache) : heap.allEntries root = allEntries cache := by
  unfold Heap.allEntries MetaCache.allEntries
  generalize heap.cache root = record at h
  induction h with
  | nil => rfl
  | @cons p q record cache hpair _ ih =>
    obtain ⟨id, ref⟩ := p
    obtain ⟨id', c⟩ := q
    obtain ⟨rfl, hholds⟩ := hpair
    rw [List.flatMap_cons, List.flatMap_cons, ih]
    exact congrArg₂ _ (hholds.read.2.victims id) rfl

/-! ## New objects -/

variable {heap : Heap V}

theorem keeps_newCache (record : List (Text × ℕ)) : Keeps heap (heap.newCache record).1 :=
  ⟨List.prefix_append _ _, List.prefix_rfl, List.prefix_rfl, List.prefix_rfl⟩

theorem keeps_newConn (c : ConnObject) : Keeps heap (heap.newConn c).1 :=
  ⟨List.prefix_rfl, List.prefix_append _ _, List.prefix_rfl, List.prefix_rfl⟩

theorem keeps_newTable (table : List (Text × ℕ)) : Keeps heap (heap.newTable table).1 :=
  ⟨List.prefix_rfl, List.prefix_rfl, List.prefix_append _ _, List.prefix_rfl⟩

theorem keeps_newEntry (entry : CacheEntry V) : Keeps heap (heap.newEntry entry).1 :=
  ⟨List.prefix_rfl, List.prefix_rfl, List.prefix_rfl, List.prefix_append _ _⟩

theorem getElem?_new {α : Type} (items : List α) (item : α) : (items ++ [item])[items.length]? = some item :=
  List.getElem?_concat_length

/-- The new cache is written to before anything else holds it. -/
theorem setCache_newCache (record later : List (Text × ℕ)) :
    (heap.newCache record).1.setCache (heap.newCache record).2 later = (heap.newCache later).1 := by
  unfold Heap.newCache Heap.setCache
  simp

theorem cache_newCache (record : List (Text × ℕ)) : (heap.newCache record).1.cache (heap.newCache record).2 = record := by
  unfold Heap.newCache Heap.cache
  simp

theorem setTable_newTable (table later : List (Text × ℕ)) :
    (heap.newTable table).1.setTable (heap.newTable table).2 later = (heap.newTable later).1 := by
  unfold Heap.newTable Heap.setTable
  simp

theorem table_newTable (table : List (Text × ℕ)) : (heap.newTable table).1.table (heap.newTable table).2 = table := by
  unfold Heap.newTable Heap.table
  simp

/-- A connection with a new record of entries. -/
theorem holdsConn_new {table : List (Text × ℕ)} {c : ConnCache V} (h : HoldsEntries heap table c.e) :
    HoldsConn ((heap.newTable table).1.newConn ⟨c.fp, (heap.newTable table).2⟩).1
      ((heap.newTable table).1.newConn ⟨c.fp, (heap.newTable table).2⟩).2 c :=
  ⟨_, table, getElem?_new _ _, getElem?_new _ _, h⟩

/-- A cache with one connection replaced, in a new object. -/
theorem holds_newCache {record : List (Text × ℕ)} {cache : Cache V} (h : HoldsConns heap record cache) :
    Holds (heap.newCache record).1 (heap.newCache record).2 cache := by
  refine ⟨record, getElem?_new _ _, ?_⟩
  exact h.mono (keeps_newCache record)

/-- The new objects of a connection and of the cache that has it. -/
def replaceConn (heap : Heap V) (record table : List (Text × ℕ)) (id fp : Text) : Heap V × ℕ :=
  ((heap.newTable table).1.newConn ⟨fp, (heap.newTable table).2⟩).1.newCache
    (Records.put id ((heap.newTable table).1.newConn ⟨fp, (heap.newTable table).2⟩).2 record)

theorem replaceConn_spec {base : Heap V} {record table : List (Text × ℕ)} {cache : Cache V} {c : ConnCache V}
    (h : HoldsConns base record cache) (hkeeps : Keeps base heap) (hentries : HoldsEntries heap table c.e) {fp : Text}
    (hfp : fp = c.fp) (id : Text) :
    Keeps base (replaceConn heap record table id fp).1 ∧
      Holds (replaceConn heap record table id fp).1 (replaceConn heap record table id fp).2 (Records.put id c cache) := by
  subst hfp
  have hnew : Keeps base ((heap.newTable table).1.newConn ⟨c.fp, (heap.newTable table).2⟩).1 :=
    hkeeps.trans ((keeps_newTable table).trans (keeps_newConn _))
  constructor
  · exact hnew.trans (keeps_newCache _)
  · exact holds_newCache (Records.Related.put (h.mono hnew) id (holdsConn_new hentries))

/-- A record with an entry in a new object. -/
theorem holdsEntries_put {table : List (Text × ℕ)} {e : List (Text × CacheEntry V)} (h : HoldsEntries heap table e)
    (key : Text) (entry : CacheEntry V) :
    HoldsEntries (heap.newEntry entry).1 (Records.put key (heap.newEntry entry).2 table) (Records.put key entry e) :=
  Records.Related.put (h.mono (keeps_newEntry entry).entries) key (getElem?_new _ _)

theorem openConn_spec {root : ℕ} {cache : Cache V} (h : Holds heap root cache) (id fp : Text) :
    Keeps heap (heap.openConn root id fp).1 ∧
      Holds (heap.openConn root id fp).1 (heap.openConn root id fp).2 (openConn cache id fp) := by
  have hfp : ((heap.cache root).lookup id).map (fun c ↦ (heap.conn c).fp) = (cache.lookup id).map (·.fp) := by
    rcases h.cache_eq.lookup id with ⟨href, hc⟩ | ⟨ref, c, href, hc, hfp, -⟩
    · rw [href, hc]
      rfl
    · rw [href, hc, Option.map_some, Option.map_some, hfp]
  unfold Heap.openConn openConn
  dsimp only
  rw [hfp]
  split_ifs with hsame
  · exact ⟨.refl heap, h⟩
  · exact replaceConn_spec (c := ⟨fp, []⟩) h.cache_eq (.refl heap) .nil rfl id

theorem clearConn_spec {root : ℕ} {cache : Cache V} (h : Holds heap root cache) (id : Text) :
    Keeps heap (heap.clearConn root id).1 ∧
      Holds (heap.clearConn root id).1 (heap.clearConn root id).2 (clearConn cache id) := by
  unfold Heap.clearConn clearConn
  rcases h.cache_eq.lookup id with ⟨href, hc⟩ | ⟨ref, c, href, hc, -, -⟩
  · rw [href, hc]
    exact ⟨.refl heap, h⟩
  · rw [href, hc]
    dsimp only
    rw [cache_newCache, setCache_newCache]
    exact ⟨keeps_newCache _, holds_newCache (Records.Related.without h.cache_eq id)⟩

theorem touch_spec {root : ℕ} {cache : Cache V} (h : Holds heap root cache) (id key : Text) (now : ℚ) :
    Keeps heap (heap.touch root id key now).1 ∧
      Holds (heap.touch root id key now).1 (heap.touch root id key now).2 (touch cache id key now) := by
  unfold Heap.touch touch
  dsimp only
  rcases h.cache_eq.lookup id with ⟨href, hc⟩ | ⟨ref, c, href, hc, hfp, hentries⟩
  · rw [href, hc]
    exact ⟨.refl heap, h⟩
  · rw [href, hc]
    dsimp only
    rw [hentries.lookup key]
    cases hentry : c.e.lookup key with
    | none => exact ⟨.refl heap, h⟩
    | some e =>
      have hput := holdsEntries_put hentries key { e with used := now }
      exact replaceConn_spec (c := { c with e := Records.put key { e with used := now } c.e }) h.cache_eq
        (keeps_newEntry _) hput hfp id

theorem markEntries_spec (pred : Text → Bool) {table : List (Text × ℕ)} {e : List (Text × CacheEntry V)}
    (h : HoldsEntries heap table e) :
    Keeps heap (Heap.markEntries pred table heap).1 ∧
      HoldsEntries (Heap.markEntries pred table heap).1 (Heap.markEntries pred table heap).2
        (e.map fun (k, v) ↦ (k, if pred k then { v with stale := true } else v)) := by
  induction table generalizing heap e with
  | nil =>
    cases h
    exact ⟨.refl heap, .nil⟩
  | cons p table ih =>
    cases h with
    | @cons _ q _ e hpair hrest =>
      obtain ⟨k, v⟩ := p
      obtain ⟨k', entry⟩ := q
      obtain ⟨hkey, hentry⟩ := hpair
      dsimp only at hkey hentry
      subst hkey
      rw [Heap.markEntries, hentry, List.map_cons]
      dsimp only
      split_ifs with hpred
      · have hnew : Keeps heap (heap.newEntry { entry with stale := true }).1 := keeps_newEntry _
        obtain ⟨hkeeps, hmarked⟩ := ih (HoldsEntries.mono hrest hnew.entries)
        exact ⟨hnew.trans hkeeps, .cons ⟨rfl, getElem?_of_prefix hkeeps.entries (getElem?_new _ _)⟩ hmarked⟩
      · obtain ⟨hkeeps, hmarked⟩ := ih hrest
        exact ⟨hkeeps, .cons ⟨rfl, getElem?_of_prefix hkeeps.entries hentry⟩ hmarked⟩

theorem markStale_spec {root : ℕ} {cache : Cache V} (h : Holds heap root cache) (id : Text) (pred : Text → Bool) :
    Keeps heap (heap.markStale root id pred).1 ∧
      Holds (heap.markStale root id pred).1 (heap.markStale root id pred).2 (markStale cache id pred) := by
  unfold Heap.markStale markStale
  dsimp only
  rcases h.cache_eq.lookup id with ⟨href, hc⟩ | ⟨ref, c, href, hc, hfp, hentries⟩
  · rw [href, hc]
    exact ⟨.refl heap, h⟩
  · rw [href, hc]
    obtain ⟨hkeeps, hmarked⟩ := markEntries_spec pred hentries
    exact replaceConn_spec
      (c := { c with e := c.e.map fun (k, v) ↦ (k, if pred k then { v with stale := true } else v) }) h.cache_eq hkeeps
      hmarked hfp id

/-! ## Eviction from the new cache -/

/-- Objects that hold a cache in an object that was not there before. -/
structure HoldsNew (base heap : Heap V) (next : ℕ) (cache : Cache V) : Prop where
  keeps : Keeps base heap
  new : base.caches.length ≤ next
  holds : Holds heap next cache

theorem keeps_setCache {base : Heap V} {next : ℕ} (h : Keeps base heap) (hnew : base.caches.length ≤ next)
    (record : List (Text × ℕ)) : Keeps base (heap.setCache next record) := by
  refine ⟨?_, h.conns, h.tables, h.entries⟩
  obtain ⟨more, hmore⟩ := h.caches
  rw [Heap.setCache, ← hmore, List.set_append_right _ _ hnew]
  exact List.prefix_append _ _

/-- Writing to a cache leaves the connections as they are. -/
theorem holds_setCache {next : ℕ} {cache later : Cache V} (h : Holds heap next cache) {record : List (Text × ℕ)}
    (hconns : HoldsConns heap record later) : Holds (heap.setCache next record) next later := by
  obtain ⟨old, hold, -⟩ := h
  refine ⟨record, ?_, hconns⟩
  rw [Heap.setCache, List.getElem?_set_self (List.getElem?_eq_some_iff.mp hold).1]

theorem HoldsNew.removeEntry {base : Heap V} {next : ℕ} {cache : Cache V} (h : HoldsNew base heap next cache)
    (cid k : Text) : HoldsNew base (heap.removeEntry next cid k) next (removeEntry cache cid k) := by
  unfold Heap.removeEntry MetaCache.removeEntry
  rcases h.holds.cache_eq.lookup cid with ⟨href, hc⟩ | ⟨ref, c, href, hc, hfp, hentries⟩
  · rw [href, hc]
    exact h
  · rw [href, hc]
    dsimp only
    rw [table_newTable, setTable_newTable, hfp]
    set table := without k (heap.table (heap.conn ref).e) with htable
    have hwithout : HoldsEntries heap table (without k c.e) := Records.Related.without hentries k
    have hkeeps : Keeps heap ((heap.newTable table).1.newConn ⟨c.fp, (heap.newTable table).2⟩).1 :=
      (keeps_newTable table).trans (keeps_newConn _)
    have hconn := holdsConn_new (c := { c with e := without k c.e }) hwithout
    refine ⟨keeps_setCache (h.keeps.trans hkeeps) h.new _, h.new, holds_setCache (h.holds.mono hkeeps) ?_⟩
    exact Records.Related.put (h.holds.cache_eq.mono hkeeps) cid hconn

theorem HoldsNew.evictFrom {base : Heap V} {next cap total : ℕ} {victims : List (Victim V)} {cache : Cache V}
    (h : HoldsNew base heap next cache) :
    HoldsNew base (Heap.evictFrom next cap total victims heap) next (evictFrom cap total victims cache) := by
  induction victims generalizing heap cache total with
  | nil => exact h
  | cons victim victims ih =>
    obtain ⟨⟨cid, k⟩, e⟩ := victim
    rw [Heap.evictFrom, MetaCache.evictFrom]
    split_ifs
    · exact h
    · exact ih (h.removeEntry cid k)

/-- The objects of a cache with the new entry, before any goes. -/
def withEntryObjects (heap : Heap V) (jsonLength : V → ℕ) (root ref : ℕ) (id key : Text) (value : V) (now : ℚ) :
    Heap V × ℕ :=
  replaceConn (heap.newEntry (newEntry jsonLength key value now)).1 (heap.cache root)
    (Records.put key (heap.newEntry (newEntry jsonLength key value now)).2 (heap.table (heap.conn ref).e)) id
    (heap.conn ref).fp

theorem Heap.putEntry_eq {jsonLength : V → ℕ} {root ref cap : ℕ} {id key : Text} {value : V} (now : ℚ)
    (href : (heap.cache root).lookup id = some ref) (hsize : ¬ cap < entrySize jsonLength key value) :
    heap.putEntry jsonLength root id key value now cap =
      let objects := withEntryObjects heap jsonLength root ref id key value now
      if objects.1.totalSize objects.2 ≤ cap then (objects, true)
      else
        ((Heap.evictFrom objects.2 cap (objects.1.totalSize objects.2) (objects.1.victimsOf objects.2 id key) objects.1,
          objects.2), true) := by
  unfold Heap.putEntry
  dsimp only
  rw [href]
  dsimp only
  rw [if_neg hsize]
  rfl

theorem putEntry_holds {jsonLength : V → ℕ} {root : ℕ} {cache : Cache V} (h : Holds heap root cache) (id key : Text)
    (value : V) (now : ℚ) (cap : ℕ) :
    (heap.putEntry jsonLength root id key value now cap).2 = (putEntry jsonLength cache id key value now cap).2 ∧
      Keeps heap (heap.putEntry jsonLength root id key value now cap).1.1 ∧
      Holds (heap.putEntry jsonLength root id key value now cap).1.1
        (heap.putEntry jsonLength root id key value now cap).1.2 (putEntry jsonLength cache id key value now cap).1 ∧
      ((heap.putEntry jsonLength root id key value now cap).2 = false →
        (heap.putEntry jsonLength root id key value now cap).1 = (heap, root)) := by
  rcases h.cache_eq.lookup id with ⟨href, hc⟩ | ⟨ref, c, href, hc, hfp, hentries⟩
  · unfold Heap.putEntry putEntry
    dsimp only
    rw [href, hc]
    exact ⟨rfl, .refl heap, h, fun _ ↦ rfl⟩
  by_cases hlarge : cap < entrySize jsonLength key value
  · unfold Heap.putEntry putEntry
    dsimp only
    rw [href, hc]
    dsimp only
    rw [if_pos hlarge, if_pos hlarge]
    exact ⟨rfl, .refl heap, h, fun _ ↦ rfl⟩
  · obtain ⟨hkeeps, hholds⟩ : Keeps heap (withEntryObjects heap jsonLength root ref id key value now).1 ∧
        Holds (withEntryObjects heap jsonLength root ref id key value now).1
          (withEntryObjects heap jsonLength root ref id key value now).2
          (withEntry jsonLength cache id c key value now) :=
      replaceConn_spec (c := { c with e := Records.put key (newEntry jsonLength key value now) c.e }) h.cache_eq
        (keeps_newEntry _) (holdsEntries_put hentries key _) hfp id
    have hnew : heap.caches.length ≤ (withEntryObjects heap jsonLength root ref id key value now).2 := le_rfl
    rw [heap.putEntry_eq now href hlarge, putEntry, hc]
    dsimp only
    rw [if_neg hlarge]
    generalize withEntryObjects heap jsonLength root ref id key value now = objects at *
    generalize withEntry jsonLength cache id c key value now = next at *
    have htotal : objects.1.totalSize objects.2 = totalSize next := by
      rw [Heap.totalSize, hholds.cache_eq.allEntries, totalSize_eq]
    have hvictims : objects.1.victimsOf objects.2 id key = victimsOf next id key := by
      rw [Heap.victimsOf, hholds.cache_eq.allEntries, victimsOf]
    rw [htotal, hvictims]
    split_ifs with hsmall
    · exact ⟨rfl, hkeeps, hholds, fun hfull ↦ absurd hfull (by decide)⟩
    · have hafter : HoldsNew heap (Heap.evictFrom objects.2 cap (totalSize next) (victimsOf next id key) objects.1)
          objects.2 (evictFrom cap (totalSize next) (victimsOf next id key) next) :=
        HoldsNew.evictFrom ⟨hkeeps, hnew, hholds⟩
      exact ⟨rfl, hafter.keeps, hafter.holds, fun hfull ↦ absurd hfull (by decide)⟩

end Holds

/-! ## Sequences of calls -/

inductive Op (V : Type)
  | openConn (id fp : Text)
  | putEntry (id key : Text) (value : V) (now : ℚ)
  | touch (id key : Text) (now : ℚ)
  | markStale (id : Text) (pred : Text → Bool)
  | clearConn (id : Text)

section Runs

variable {V : Type} (jsonLength : V → ℕ) (cap : ℕ)

/-- A call on the cache's value. -/
def Op.apply (cache : Cache V) : Op V → Cache V
  | .openConn id fp => MetaCache.openConn cache id fp
  | .putEntry id key value now => (MetaCache.putEntry jsonLength cache id key value now cap).1
  | .touch id key now => MetaCache.touch cache id key now
  | .markStale id pred => MetaCache.markStale cache id pred
  | .clearConn id => MetaCache.clearConn cache id

/-- A call on the objects. -/
def Op.run (store : Heap V × ℕ) : Op V → Heap V × ℕ
  | .openConn id fp => store.1.openConn store.2 id fp
  | .putEntry id key value now => (store.1.putEntry jsonLength store.2 id key value now cap).1
  | .touch id key now => store.1.touch store.2 id key now
  | .markStale id pred => store.1.markStale store.2 id pred
  | .clearConn id => store.1.clearConn store.2 id

/-- The objects after a sequence of calls, from those of the empty cache. -/
def storeAfter (ops : List (Op V)) : Heap V × ℕ :=
  ops.foldl (Op.run jsonLength cap) (Heap.newCache ⟨[], [], [], []⟩ [])

def cacheAfter (ops : List (Op V)) : Cache V := ops.foldl (Op.apply jsonLength cap) []

/-- Whether the connection was opened, and not cleared since. -/
def isOpen (ops : List (Op V)) (id : Text) : Bool :=
  ops.foldl (fun before op ↦
    match op with
    | .openConn opened _ => before || opened = id
    | .clearConn cleared => before && cleared ≠ id
    | _ => before) false

variable {jsonLength cap}

theorem run_holds {store : Heap V × ℕ} {cache : Cache V} (h : Holds store.1 store.2 cache) (op : Op V) :
    Keeps store.1 (op.run jsonLength cap store).1 ∧
      Holds (op.run jsonLength cap store).1 (op.run jsonLength cap store).2 (op.apply jsonLength cap cache) := by
  cases op with
  | openConn id fp => exact openConn_spec h id fp
  | putEntry id key value now =>
    obtain ⟨-, hkeeps, hholds, -⟩ := @putEntry_holds _ _ jsonLength _ _ h id key value now cap
    exact ⟨hkeeps, hholds⟩
  | touch id key now => exact touch_spec h id key now
  | markStale id pred => exact markStale_spec h id pred
  | clearConn id => exact clearConn_spec h id

theorem apply_fits {cache : Cache V} (h : Keyed cache) (hfits : totalSize cache ≤ cap) (op : Op V) :
    Keyed (op.apply jsonLength cap cache) ∧ totalSize (op.apply jsonLength cap cache) ≤ cap := by
  cases op with
  | openConn id fp => exact ⟨h.openConn id fp, (totalSize_openConn_le cache id fp).trans hfits⟩
  | putEntry id key value now =>
    obtain ⟨hkeyed, hput, -⟩ := @putEntry_spec _ jsonLength _ id key value now _ h hfits
    exact ⟨hkeyed, hput⟩
  | touch id key now => exact ⟨h.touch id key now, (totalSize_touch_le cache id key now).trans hfits⟩
  | markStale id pred => exact ⟨h.markStale id pred, (totalSize_markStale_le cache id pred).trans hfits⟩
  | clearConn id => exact ⟨h.clearConn id, (totalSize_clearConn_le cache id).trans hfits⟩

variable (jsonLength cap) in
/-- What holds after any calls. -/
structure Sound (ops : List (Op V)) : Prop where
  holds : Holds (storeAfter jsonLength cap ops).1 (storeAfter jsonLength cap ops).2 (cacheAfter jsonLength cap ops)
  keyed : Keyed (cacheAfter jsonLength cap ops)
  fits : totalSize (cacheAfter jsonLength cap ops) ≤ cap
  ids : ∀ id, id ∈ (cacheAfter jsonLength cap ops).map (·.1) ↔ isOpen ops id = true

theorem storeAfter_concat (ops : List (Op V)) (op : Op V) :
    storeAfter jsonLength cap (ops ++ [op]) = op.run jsonLength cap (storeAfter jsonLength cap ops) := by
  rw [storeAfter, List.foldl_append]
  rfl

theorem cacheAfter_concat (ops : List (Op V)) (op : Op V) :
    cacheAfter jsonLength cap (ops ++ [op]) = op.apply jsonLength cap (cacheAfter jsonLength cap ops) := by
  rw [cacheAfter, List.foldl_append]
  rfl

theorem isOpen_concat (ops : List (Op V)) (op : Op V) (id : Text) :
    isOpen (ops ++ [op]) id =
      match op with
      | .openConn opened _ => isOpen ops id || opened = id
      | .clearConn cleared => isOpen ops id && cleared ≠ id
      | _ => isOpen ops id := by
  rw [isOpen, List.foldl_append]
  cases op <;> rfl

theorem ids_apply_iff {cache : Cache V} {ops : List (Op V)} {id : Text}
    (h : id ∈ cache.map (·.1) ↔ isOpen ops id = true) (op : Op V) :
    id ∈ (op.apply jsonLength cap cache).map (·.1) ↔ isOpen (ops ++ [op]) id = true := by
  rw [isOpen_concat]
  cases op with
  | openConn opened fp =>
    rw [Bool.or_eq_true, ← h, decide_eq_true_eq, eq_comm]
    exact ids_openConn
  | putEntry other key value now =>
    rw [← h]
    exact iff_of_eq (congrArg _ ids_putEntry)
  | touch other key now =>
    rw [← h]
    exact iff_of_eq (congrArg _ ids_touch)
  | markStale other pred =>
    rw [← h]
    exact iff_of_eq (congrArg _ ids_markStale)
  | clearConn cleared =>
    rw [Bool.and_eq_true, ← h, decide_eq_true_eq, ne_comm]
    exact ids_clearConn

theorem sound_ops (jsonLength : V → ℕ) (cap : ℕ) (ops : List (Op V)) : Sound jsonLength cap ops := by
  induction ops using List.reverseRecOn with
  | nil => exact ⟨⟨[], rfl, .nil⟩, keyed_nil, Nat.zero_le _, fun id ↦ iff_of_false List.not_mem_nil nofun⟩
  | append_singleton ops op ih =>
    obtain ⟨hkeyed, hfits⟩ := @apply_fits _ jsonLength _ _ ih.keyed ih.fits op
    constructor
    · rw [storeAfter_concat, cacheAfter_concat]
      exact (run_holds ih.holds op).2
    · rwa [cacheAfter_concat]
    · rwa [cacheAfter_concat]
    · intro id
      rw [cacheAfter_concat]
      exact ids_apply_iff (ih.ids id) op

/-- What a call of `putEntry` does after other calls. -/
structure PutOutcome (jsonLength : V → ℕ) (cap : ℕ) (before : List (Op V)) (id key : Text) (value : V) (now : ℚ) :
    Prop where
  refused_iff :
    ((storeAfter jsonLength cap before).1.putEntry jsonLength (storeAfter jsonLength cap before).2 id key value now
        cap).2 = false ↔ isOpen before id = false ∨ cap < entrySize jsonLength key value
  refused :
    ((storeAfter jsonLength cap before).1.putEntry jsonLength (storeAfter jsonLength cap before).2 id key value now
        cap).2 = false →
      storeAfter jsonLength cap (before ++ [.putEntry id key value now]) = storeAfter jsonLength cap before ∧
        cacheAfter jsonLength cap (before ++ [.putEntry id key value now]) = cacheAfter jsonLength cap before
  stored :
    ((storeAfter jsonLength cap before).1.putEntry jsonLength (storeAfter jsonLength cap before).2 id key value now
        cap).2 = true →
      Stored (cacheAfter jsonLength cap before) id key value cap
        (cacheAfter jsonLength cap (before ++ [.putEntry id key value now]))

/-- A connection that was opened and then cleared. -/
def openedAndCleared : List (Op Unit) := [.openConn ['a'] ['f'], .clearConn ['a']]

end Runs

end Squaero.Front.MetaCache
