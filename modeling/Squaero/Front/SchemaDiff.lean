import Mathlib.Data.Char
import Mathlib.Data.List.Lex
import Squaero.Front.RunScope
import Squaero.Front.QueryBuilder
import Squaero.Lib.DependencyOrder

/-!
# Schemas compared

`diffSchemas` of `frontend/src/utils/schemaDiff.ts`: what must change in one schema to match another. Names are
matched by `k`, which is `toLowerCase`.
-/

namespace Squaero.Front.Schemas

open Squaero.Lib

structure ColumnDef where
  name : Text
  type : Text
  notnull : Bool
  dflt : Option Text
  deriving DecidableEq

structure KeyDef where
  name : Option Text
  columns : List Text
  deriving DecidableEq

structure IndexDef where
  name : Text
  columns : List Text
  unique : Bool
  deriving DecidableEq

structure ForeignKeyDef where
  name : Option Text
  columns : List Text
  refTable : Text
  refColumns : List Text
  deriving DecidableEq

structure CheckDef where
  name : Option Text
  expr : Text
  deriving DecidableEq

structure TableDef where
  name : Text
  columns : List ColumnDef
  primaryKey : Option KeyDef
  uniques : List KeyDef
  indexes : List IndexDef
  foreignKeys : List ForeignKeyDef
  checks : List CheckDef
  deriving DecidableEq

structure ViewDef where
  name : Text
  ddl : Text
  deriving DecidableEq

inductive Category
  | constraints
  | checks
  | indexes
  | views
  | defaults
  deriving DecidableEq

structure SchemaSnapshot where
  engine : Text
  tables : List TableDef
  views : List ViewDef
  /-- The categories that could not be read, each with its reason. -/
  missing : List (Category × Text)
  skipped : List Text

/-! ## Differences -/

structure ColumnChange where
  name : Text
  before : ColumnDef
  after : ColumnDef
  type : Bool
  nullability : Bool
  dflt : Bool

structure AddRemove (α : Type) where
  added : List α
  removed : List α

structure PrimaryKeyChange where
  before : Option KeyDef
  after : Option KeyDef

structure TableChange where
  /-- The target's spelling. -/
  name : Text
  added : List ColumnDef
  removed : List ColumnDef
  changed : List ColumnChange
  pk : Option PrimaryKeyChange
  uniques : AddRemove KeyDef
  indexes : AddRemove IndexDef
  foreignKeys : AddRemove ForeignKeyDef
  checks : AddRemove CheckDef

inductive Side
  | source
  | target
  deriving DecidableEq

structure NotCompared where
  side : Side
  engine : Text
  category : Category
  reason : Text

structure SchemaDiff where
  sourceEngine : Text
  targetEngine : Text
  addedTables : List TableDef
  removedTables : List TableDef
  changedTables : List TableChange
  addedViews : List ViewDef
  removedViews : List ViewDef
  /-- The source's view and the target's. -/
  changedViews : List (ViewDef × ViewDef)
  notCompared : List NotCompared
  skipped : List Text

/-! ## Signatures -/

variable (k : Text → Text)

def colsKey (cols : List Text) : Text := [','].intercalate (cols.map k)

def isTight (c : Char) : Bool := c = '(' || c = ')' || c = ','

/-- `replace(/\s*([(),])\s*/g, "$1")`; `after` one of them blanks are dropped. -/
def tighten : Bool → Text → Text
  | _, [] => []
  | after, c :: rest =>
    if isJsSpace c then
      if after ∨ (rest.dropWhile isJsSpace).head?.any isTight then tighten after rest else c :: tighten false rest
    else c :: tighten (isTight c) rest

/-- Type text normalized for comparison. -/
def normType (t : Text) : Text := jsTrim (tighten false (replaceAll spaces [' '] (k t)))

def balancedFrom : ℕ → Text → Bool
  | depth, [] => depth = 0
  | depth, '(' :: rest => balancedFrom (depth + 1) rest
  | depth, ')' :: rest => depth ≠ 0 && balancedFrom (depth - 1) rest
  | depth, _ :: rest => balancedFrom depth rest

def balanced (s : Text) : Bool := balancedFrom 0 s

/-- What `.` does not match. -/
def isLineEnd (c : Char) : Bool := c = '\n' || c = '\r' || c = '\u2028' || c = '\u2029'

/-- The loop of `normDefault`, for each pair of parentheses. -/
def unwrap : ℕ → Text → Text
  | 0, s => s
  | fuel + 1, s =>
    let inner := s.tail.dropLast
    if s.head? = some '(' ∧ s.tail.getLast? = some ')' ∧ inner.all (!isLineEnd ·) ∧ balanced inner then
      unwrap fuel (jsTrim inner)
    else s

/-- A default normalized for comparison; each round takes two characters. -/
def normDefault (d : Option Text) : Text := unwrap (d.getD []).length (jsTrim (d.getD []))

def isQuoteOrBracket (c : Char) : Bool := c = '"' || c = '`' || c = '[' || c = ']'

def normExpr (e : Text) : Text :=
  (k e).filter fun c ↦ !(isJsSpace c || c = '(' || c = ')' || isQuoteOrBracket c)

def fkSig (f : ForeignKeyDef) : Text :=
  colsKey k f.columns ++ '>' :: (k f.refTable ++ '(' :: (colsKey k f.refColumns ++ [')']))

def indexSig (i : IndexDef) : Text := (if i.unique then ['u'] else []) ++ ':' :: colsKey k i.columns

def pkSig : Option KeyDef → Text
  | some p => [','].intercalate ((p.columns.map k).mergeSort (· ≤ ·))
  | none => []

/-! ## Matching -/

structure Matched (α : Type) where
  added : List α
  removed : List α
  kept : List (α × α)

section

variable {α : Type} (source target : List α) (sig : α → Text)

/-- `new Map(target.map((x) => [sig(x), x])).get(key)`: of items with one signature the last. -/
def lookup (key : Text) : Option α := target.reverse.find? (sig · = key)

def matchBy : Matched α where
  added := source.filter fun x ↦ (lookup target sig (sig x)).isNone
  removed := target.filter fun x ↦ sig x ∉ source.map sig
  kept := source.filterMap fun s ↦ (lookup target sig (sig s)).map fun t ↦ (s, t)

end

/-! ## Views -/

/-- `[\s\S]*?\bword\b`: the text behind the first such word. -/
def behindWord (word : Text) : Option Char → Text → Option Text
  | before, text =>
    if wordHere word before text then some (text.drop word.length)
    else
      match text with
      | [] => none
      | c :: rest => behindWord word (some c) rest

/-- The group of `/\bview\b[\s\S]*?\bas\b([\s\S]*)$/i`. -/
def viewQuery (ddl : Text) : Option Text :=
  (behindWord "view".toList none ddl).bind fun rest ↦ behindWord "as".toList (some 'w') rest

def withoutSemicolon (s : Text) : Text :=
  let body := s.rdropWhile isJsSpace
  if body.getLast? = some ';' then body.dropLast else s

def viewBody (ddl : Text) : Text :=
  (k (withoutSemicolon ((viewQuery ddl).getD ddl))).filter fun c ↦ !(isJsSpace c || isQuoteOrBracket c)

/-- `(^|[^\w$])name($|[^\w$])` matches. -/
def mentions (name : Text) : Option Char → Text → Bool
  | before, text =>
    !before.any isSplitWord && name.isPrefixOf text && !(text.drop name.length).head?.any isSplitWord ||
      match text with
      | [] => false
      | c :: rest => mentions name (some c) rest

/-- The other names that the query of a view mentions as a whole word. -/
def viewDeps (views : List ViewDef) (extra : List Text) (name : Text) : List Text :=
  let body := ((lookup views (fun v ↦ k v.name) (k name)).map fun v ↦ k ((viewQuery v.ddl).getD v.ddl)).getD []
  ((views.map (·.name) ++ extra).filter fun n ↦ k n ≠ k name).filter fun n ↦ mentions (k n) none body

/-! ## Tables -/

def pick {α : Type} (on : Bool) (a b : List α) (sig : α → Text) : AddRemove α :=
  if on then ⟨(matchBy a b sig).added, (matchBy a b sig).removed⟩ else ⟨[], []⟩

def columnChange (has : Category → Bool) (sc tc : ColumnDef) : Option ColumnChange :=
  let type := decide (normType k sc.type ≠ normType k tc.type)
  let nullability := sc.notnull != tc.notnull
  let dflt := has .defaults && decide (normDefault sc.dflt ≠ normDefault tc.dflt)
  if type || nullability || dflt then some ⟨tc.name, tc, sc, type, nullability, dflt⟩ else none

def diffTable (has : Category → Bool) (s t : TableDef) : TableChange :=
  let cols := matchBy s.columns t.columns fun c ↦ k c.name
  { name := t.name
    added := cols.added
    removed := cols.removed
    changed := cols.kept.filterMap fun c ↦ columnChange k has c.1 c.2
    pk := if pkSig k s.primaryKey ≠ pkSig k t.primaryKey then some ⟨t.primaryKey, s.primaryKey⟩ else none
    uniques := pick (has .constraints) s.uniques t.uniques fun u ↦ colsKey k u.columns
    indexes := pick (has .indexes) s.indexes t.indexes (indexSig k)
    foreignKeys := pick (has .constraints) s.foreignKeys t.foreignKeys (fkSig k)
    checks := pick (has .checks) s.checks t.checks fun c ↦ normExpr k c.expr }

def AddRemove.isEmpty {α : Type} (x : AddRemove α) : Bool := x.added.isEmpty && x.removed.isEmpty

def tableChangeEmpty (c : TableChange) : Bool :=
  c.added.isEmpty && c.removed.isEmpty && c.changed.isEmpty && c.pk.isNone && c.uniques.isEmpty &&
    c.indexes.isEmpty && c.foreignKeys.isEmpty && c.checks.isEmpty

/-- Foreign keys that both sides have are made anew where the key or a column they use changes. -/
def recreated (rekeyed retyped : List Text) (s t : TableDef) : List (ForeignKeyDef × ForeignKeyDef) :=
  (matchBy s.foreignKeys t.foreignKeys (fkSig k)).kept.filter fun f ↦
    k f.2.refTable ∈ rekeyed ||
      f.2.columns.any (fun c ↦ k t.name ++ '.' :: k c ∈ retyped) ||
      f.2.refColumns.any fun c ↦ k f.2.refTable ++ '.' :: k c ∈ retyped

/-- `changes`, with the foreign keys that are made anew. -/
def tableChanges (has : Category → Bool) (kept : List (TableDef × TableDef)) : List TableChange :=
  let changes := kept.map fun p ↦ diffTable k has p.1 p.2
  let rekeyed := (changes.filter (·.pk.isSome)).map fun ch ↦ k ch.name
  let retyped := changes.flatMap fun ch ↦
    (ch.changed.filter (·.type)).map fun c ↦ k ch.name ++ '.' :: k c.name
  if (retyped ++ rekeyed ≠ []) ∧ has .constraints then
    kept.map fun p ↦
      let ch := diffTable k has p.1 p.2
      let again := recreated k rekeyed retyped p.1 p.2
      { ch with
        foreignKeys := ⟨ch.foreignKeys.added ++ again.map Prod.fst, ch.foreignKeys.removed ++ again.map Prod.snd⟩ }
  else changes

/-! ## Views that are made anew -/

/-- One round over the views of both sides: a view that reads a dropped view or a touched table is dropped too. -/
def growOnce (reads : Text → List Text) (touched : List Text) :
    List (ViewDef × ViewDef) → List (ViewDef × ViewDef) × List Text → List (ViewDef × ViewDef) × List Text
  | [], st => st
  | p :: kept, st =>
    growOnce reads touched kept
      (if k p.2.name ∉ st.2 ∧ ((reads p.2.name).any fun d ↦ k d ∈ st.2 ∨ k d ∈ touched) then
        (st.1 ++ [p], st.2 ++ [k p.2.name])
      else st)

/-- Rounds until one drops nothing, at most `fuel`. -/
def grow (reads : Text → List Text) (touched : List Text) (kept : List (ViewDef × ViewDef)) :
    ℕ → List (ViewDef × ViewDef) × List Text → List (ViewDef × ViewDef)
  | 0, st => st.1
  | fuel + 1, st =>
    let st' := growOnce k reads touched kept st
    if st.1.length < st'.1.length then grow reads touched kept fuel st' else st'.1

/-- `changedViews`, of the views that are matched; each round drops one at least or is the last. -/
def changedViewsOf (views : Matched ViewDef) (targetViews : List ViewDef) (changes : List TableChange) :
    List (ViewDef × ViewDef) :=
  let changed := views.kept.filter fun p ↦ decide (viewBody k p.1.ddl ≠ viewBody k p.2.ddl)
  let touched := ((changes.filter fun c ↦ c.removed ≠ [] ∨ c.changed.any (·.type)).map fun c ↦ k c.name).eraseDups
  let dropped := (views.removed ++ changed.map Prod.snd).map fun v ↦ k v.name
  grow k (viewDeps k targetViews touched) touched views.kept (views.kept.length + 1) (changed, dropped)

/-! ## Snapshots -/

def diffSchemas (source target : SchemaSnapshot) : SchemaDiff :=
  let has := fun c ↦ decide (c ∉ source.missing.map Prod.fst) && decide (c ∉ target.missing.map Prod.fst)
  let tables := matchBy source.tables target.tables fun t ↦ k t.name
  let changes := tableChanges k has tables.kept
  let views := matchBy source.views target.views fun v ↦ k v.name
  { sourceEngine := source.engine
    targetEngine := target.engine
    addedTables := tables.added
    removedTables := tables.removed
    changedTables := changes.filter fun c ↦ !tableChangeEmpty c
    addedViews := if has .views then views.added else []
    removedViews := if has .views then views.removed else []
    changedViews := if has .views then changedViewsOf k views target.views changes else []
    notCompared :=
      source.missing.map (fun m ↦ ⟨.source, source.engine, m.1, m.2⟩) ++
        target.missing.map fun m ↦ ⟨.target, target.engine, m.1, m.2⟩
    skipped := source.skipped ++ target.skipped }

/-! ## The order of names -/

def needOf (names : List Text) (deps : Text → List Text) (key : Text) : List Text :=
  (lookup names k key).toList.flatMap fun n ↦ ((deps n).map k).filter fun d ↦ d ≠ k n ∧ d ∈ names.map k

/-- The order, and the names caught in a cycle or depending on one. -/
def orderByDependencies (names : List Text) (deps : Text → List Text) : List Text × List Text :=
  (DependencyOrder.order k (needOf k names deps) names, DependencyOrder.cyclic k (needOf k names deps) names)

/-! ## What is matched -/

section

variable {α : Type} {source target : List α} {sig : α → Text}

theorem of_lookup {key : Text} {t : α} (h : lookup target sig key = some t) : t ∈ target ∧ sig t = key := by
  unfold lookup at h
  have hsig := List.find?_some h
  exact ⟨List.mem_reverse.mp (List.mem_of_find?_eq_some h), of_decide_eq_true hsig⟩

theorem lookup_eq_none_iff {key : Text} : lookup target sig key = none ↔ ∀ t ∈ target, sig t ≠ key := by
  unfold lookup
  rw [List.find?_eq_none]
  simp

theorem lookup_of_nodup (h : (target.map sig).Nodup) {t : α} (ht : t ∈ target) : lookup target sig (sig t) = some t := by
  cases hfound : lookup target sig (sig t) with
  | none => exact absurd rfl (lookup_eq_none_iff.mp hfound t ht)
  | some u =>
    obtain ⟨hu, hsig⟩ := of_lookup hfound
    rw [List.inj_on_of_nodup_map h hu ht hsig]

theorem mem_added {s : α} : s ∈ (matchBy source target sig).added ↔ s ∈ source ∧ ∀ t ∈ target, sig t ≠ sig s := by
  unfold matchBy
  rw [List.mem_filter, Option.isNone_iff_eq_none, lookup_eq_none_iff]

theorem of_mem_kept {p : α × α} (h : p ∈ (matchBy source target sig).kept) :
    p.1 ∈ source ∧ p.2 ∈ target ∧ sig p.2 = sig p.1 := by
  obtain ⟨s, hs, hp⟩ := List.mem_filterMap.mp h
  obtain ⟨t, ht, rfl⟩ := Option.map_eq_some_iff.mp hp
  exact ⟨hs, of_lookup ht⟩

theorem kept_sublist : ((matchBy source target sig).kept.map Prod.fst).Sublist source := by
  unfold matchBy
  induction source with
  | nil => exact List.Sublist.refl _
  | cons s source ih =>
    dsimp only
    rw [List.filterMap_cons]
    cases lookup target sig (sig s) with
    | none => exact ih.cons s
    | some t => exact ih.cons_cons s

end

/-! ## Views that are made anew -/

/-- Views to be made anew are of both sides, each once, and dropped. -/
structure Grown (kept : List (ViewDef × ViewDef)) (st : List (ViewDef × ViewDef) × List Text) : Prop where
  subset : ∀ p ∈ st.1, p ∈ kept
  nodup : (st.1.map fun p ↦ k p.2.name).Nodup
  dropped : ∀ p ∈ st.1, k p.2.name ∈ st.2

variable {k} {kept : List (ViewDef × ViewDef)}

theorem grown_growOnce {reads : Text → List Text} {touched : List Text} {part : List (ViewDef × ViewDef)}
    (hpart : ∀ p ∈ part, p ∈ kept) {st : List (ViewDef × ViewDef) × List Text} (h : Grown k kept st) :
    Grown k kept (growOnce k reads touched part st) := by
  induction part generalizing st with
  | nil => exact h
  | cons p part ih =>
    unfold growOnce
    refine ih (fun q hq ↦ hpart q (List.mem_cons_of_mem p hq)) ?_
    split_ifs with hnew
    · constructor
      · intro q hq
        rcases List.mem_append.mp hq with hq | hq
        · exact h.subset q hq
        · exact List.mem_singleton.mp hq ▸ hpart p List.mem_cons_self
      · rw [List.map_append]
        refine h.nodup.append (List.nodup_singleton _) (List.disjoint_singleton.mpr fun hmem ↦ hnew.1 ?_)
        obtain ⟨q, hq, heq⟩ := List.mem_map.mp hmem
        have hdropped := h.dropped q hq
        rwa [heq] at hdropped
      · intro q hq
        rcases List.mem_append.mp hq with hq | hq
        · exact List.mem_append_left _ (h.dropped q hq)
        · exact List.mem_append_right _ (List.mem_singleton.mpr (List.mem_singleton.mp hq ▸ rfl))
    · exact h

theorem grow_nodup {reads : Text → List Text} {touched : List Text} {fuel : ℕ}
    {st : List (ViewDef × ViewDef) × List Text} (h : Grown k kept st) :
    (∀ p ∈ grow k reads touched kept fuel st, p ∈ kept) ∧
      ((grow k reads touched kept fuel st).map fun p ↦ k p.2.name).Nodup := by
  induction fuel generalizing st with
  | zero => exact ⟨h.subset, h.nodup⟩
  | succ fuel ih =>
    have hround : Grown k kept (growOnce k reads touched kept st) := grown_growOnce (fun _ hp ↦ hp) h
    unfold grow
    dsimp only
    split_ifs
    · exact ih hround
    · exact ⟨hround.subset, hround.nodup⟩

/-- The views to be created have names of their own. -/
theorem newViews_nodup {source target : List ViewDef} (hsource : (source.map fun v ↦ k v.name).Nodup)
    (changes : List TableChange) :
    (((matchBy source target fun v ↦ k v.name).added ++
      (changedViewsOf k (matchBy source target fun v ↦ k v.name) target changes).map Prod.fst).map
        fun v ↦ k v.name).Nodup := by
  generalize hviews : matchBy source target (fun v ↦ k v.name) = views
  have hkept : ∀ p ∈ views.kept, p.1 ∈ source ∧ p.2 ∈ target ∧ k p.2.name = k p.1.name := by
    subst hviews
    exact fun p hp ↦ of_mem_kept hp
  have hnames : (views.kept.map fun p ↦ k p.2.name).Nodup := by
    have hsub : (views.kept.map Prod.fst).Sublist source := hviews ▸ kept_sublist
    have hsame : views.kept.map (fun p ↦ k p.2.name) = (views.kept.map Prod.fst).map fun v ↦ k v.name := by
      rw [List.map_map]
      exact List.map_congr_left fun p hp ↦ (hkept p hp).2.2
    rw [hsame]
    exact hsource.sublist (hsub.map _)
  obtain ⟨hsubset, hnodup⟩ : (∀ p ∈ changedViewsOf k views target changes, p ∈ views.kept) ∧
      ((changedViewsOf k views target changes).map fun p ↦ k p.2.name).Nodup := by
    refine grow_nodup ⟨fun p hp ↦ (List.mem_filter.mp hp).1, hnames.sublist (List.filter_sublist.map _), fun p hp ↦ ?_⟩
    exact List.mem_map_of_mem (List.mem_append_right _ (List.mem_map_of_mem hp))
  have hchanged : ((changedViewsOf k views target changes).map Prod.fst).map (fun v ↦ k v.name) =
      (changedViewsOf k views target changes).map fun p ↦ k p.2.name := by
    rw [List.map_map]
    exact List.map_congr_left fun p hp ↦ ((hkept p (hsubset p hp)).2.2).symm
  rw [List.map_append, hchanged]
  refine List.Nodup.append ?_ hnodup ?_
  · have hadded : views.added.Sublist source := by
      subst hviews
      exact List.filter_sublist
    exact hsource.sublist (hadded.map _)
  · intro key hadded hkey
    obtain ⟨v, hv, rfl⟩ := List.mem_map.mp hadded
    obtain ⟨p, hp, heq⟩ := List.mem_map.mp hkey
    subst hviews
    exact (mem_added.mp hv).2 p.2 (hkept p (hsubset p hp)).2.1 heq

end Squaero.Front.Schemas
