import Mathlib.Algebra.Order.Field.Rat
import Mathlib.Tactic.NormNum
import Squaero.Lib.Eviction
import Squaero.Lib.Text

/-!
# Local history of the editor tabs

`frontend/src/utils/localHistory.ts`: recording a version of a tab's text, and the three rules of retention: by age,
by number of versions of a tab, and by the size of everything.
-/

namespace Squaero.Front.LocalHistory

open Squaero.Lib Squaero.Lib.Eviction

inductive VersionReason
  | run
  | auto
  | close
  | restore
  deriving DecidableEq, Repr

structure TabVersion where
  ts : ℚ
  reason : VersionReason
  sql : Text
  deriving DecidableEq

structure TabHistory where
  tabId : ℤ
  title : Text
  versions : List TabVersion
  deriving DecidableEq

structure Retention where
  maxVersions : ℤ
  maxDays : ℚ

def maxVersionChars : ℕ := 100000

def maxTotalChars : ℕ := 1000000

def dayMs : ℚ := 86400000

inductive RecordOutcome
  | recorded
  | unchanged
  | blank
  | tooBig
  | disabled
  deriving DecidableEq, Repr

/-! ## Retention -/

def TabVersion.size (v : TabVersion) : ℕ := jsLength v.sql

/-- The `cutoff`, which there is only with an age limit. -/
def isFresh (retention : Retention) (now : ℚ) (v : TabVersion) : Bool :=
  retention.maxDays ≤ 0 || now - retention.maxDays * dayMs ≤ v.ts

/-- The rules of age and number. -/
def trimmed (list : List TabHistory) (retention : Retention) (now : ℚ) : List TabHistory :=
  (list.map fun h ↦
    { h with versions := (h.versions.filter (isFresh retention now)).take retention.maxVersions.toNat }).filter
    fun h ↦ h.versions ≠ []

/-- A version as an object: its tab and its place there. -/
abbrev Position := ℕ × ℕ

/-- All versions, those of the first tab first. -/
def allVersions (out : List TabHistory) : List (Position × TabVersion) :=
  out.zipIdx.flatMap fun (h, i) ↦ h.versions.zipIdx.map fun (v, j) ↦ ((i, j), v)

def totalChars (out : List TabHistory) : ℕ := (out.map fun h ↦ (h.versions.map TabVersion.size).sum).sum

/-- The stable sort by age. -/
def byAge (out : List TabHistory) : List (Position × TabVersion) :=
  (allVersions out).insertionSort fun a b ↦ a.2.ts ≤ b.2.ts

/-- What is dropped for space, the oldest first. -/
def doomed (out : List TabHistory) (maxTotal : ℕ) : List (Position × TabVersion) :=
  evicted (fun p ↦ p.2.size) maxTotal (totalChars out) (byAge out)

/-- The versions that are not dropped, and the tabs that have any. -/
def withoutDoomed (out : List TabHistory) (gone : List Position) : List TabHistory :=
  (out.zipIdx.map fun (h, i) ↦
    { h with versions := (h.versions.zipIdx.filter fun (_, j) ↦ (i, j) ∉ gone).map (·.1) }).filter
    fun h ↦ h.versions ≠ []

/-- `pruneHistory` -/
def pruneHistory (list : List TabHistory) (retention : Retention) (now : ℚ) (maxTotal : ℕ) : List TabHistory :=
  let out := trimmed list retention now
  if totalChars out ≤ maxTotal then out
  else withoutDoomed out ((doomed out maxTotal).map (·.1))

/-! ## Recording -/

/-- A call of `recordVersion`, less the list. -/
structure Call where
  id : ℤ
  title : Text
  sql : Text
  reason : VersionReason
  now : ℚ
  retention : Retention

/-- The list with the new version, the tab in front. -/
def withVersion (list : List TabHistory) (call : Call) : List TabHistory :=
  let own := list.find? fun h ↦ h.tabId = call.id
  let version := { ts := call.now, reason := call.reason, sql := call.sql }
  { tabId := call.id, title := call.title, versions := version :: (own.map (·.versions)).getD [] } ::
    list.eraseP fun h ↦ h.tabId = call.id

/-- `recordVersion` -/
def recordVersion (list : List TabHistory) (call : Call) : List TabHistory × RecordOutcome :=
  if call.retention.maxVersions ≤ 0 then (list, .disabled)
  else if jsTrim call.sql = [] then (list, .blank)
  else if maxVersionChars < jsLength call.sql then (list, .tooBig)
  else
    let own := list.find? fun h ↦ h.tabId = call.id
    if (own.bind (·.versions.head?)).map (·.sql) = some call.sql then (list, .unchanged)
    else (pruneHistory (withVersion list call) call.retention call.now maxTotalChars, .recorded)

/-- The list after a sequence of calls. -/
def historyAfter (calls : List Call) : List TabHistory :=
  calls.foldl (fun list call ↦ (recordVersion list call).1) []

/-! ## Versions and their places -/

theorem sum_flatMap {α β : Type} (f : β → ℕ) (g : α → List β) (xs : List α) :
    ((xs.flatMap g).map f).sum = (xs.map fun x ↦ ((g x).map f).sum).sum := by
  induction xs with
  | nil => rfl
  | cons x xs ih => rw [List.flatMap_cons, List.map_append, List.sum_append, List.map_cons, List.sum_cons, ih]

theorem totalChars_eq (out : List TabHistory) :
    totalChars out = ((allVersions out).map fun p ↦ p.2.size).sum := by
  have hplain (h : TabHistory) (i : ℕ) :
      ((h.versions.zipIdx.map fun (v, j) ↦ (((i, j), v) : Position × TabVersion)).map fun p ↦ p.2.size).sum =
        (h.versions.map TabVersion.size).sum := by
    rw [List.map_map]
    conv_rhs => rw [← List.zipIdx_map_fst 0 h.versions, List.map_map]
    rfl
  rw [totalChars, allVersions, sum_flatMap]
  simp only [hplain]
  conv_lhs => rw [← List.zipIdx_map_fst 0 out, List.map_map]
  rfl

theorem totalChars_filter (list : List TabHistory) :
    totalChars (list.filter fun h ↦ h.versions ≠ []) = totalChars list := by
  induction list with
  | nil => rfl
  | cons h list ih =>
    unfold totalChars at *
    by_cases hnil : h.versions = []
    · rw [List.filter_cons_of_neg (by simp [hnil]), ih, List.map_cons, List.sum_cons, hnil]
      simp
    · rw [List.filter_cons_of_pos (by simp [hnil]), List.map_cons, List.sum_cons, ih, List.map_cons, List.sum_cons]

/-- What is kept is the size of the versions at other places. -/
theorem totalChars_withoutDoomed (out : List TabHistory) (gone : List Position) :
    totalChars (withoutDoomed out gone) =
      (((allVersions out).filter fun p ↦ p.1 ∉ gone).map fun p ↦ p.2.size).sum := by
  have hplain (h : TabHistory) (i : ℕ) :
      (((h.versions.zipIdx.filter fun (_, j) ↦ (i, j) ∉ gone).map (·.1)).map TabVersion.size).sum =
        (((h.versions.zipIdx.map fun (v, j) ↦ (((i, j), v) : Position × TabVersion)).filter
          fun p ↦ p.1 ∉ gone).map fun p ↦ p.2.size).sum := by
    rw [List.filter_map, List.map_map, List.map_map]
    rfl
  rw [withoutDoomed, totalChars_filter, totalChars, List.map_map, allVersions, List.filter_flatMap, sum_flatMap]
  refine congrArg List.sum (List.map_congr_left fun x _ ↦ ?_)
  exact hplain x.1 x.2

theorem nodup_places (out : List TabHistory) : ((allVersions out).map (·.1)).Nodup := by
  unfold allVersions
  rw [List.map_flatMap, List.nodup_flatMap]
  constructor
  · rintro ⟨h, i⟩ -
    rw [List.map_map]
    have hplaces : (h.versions.zipIdx.map fun x ↦ ((i, x.2) : Position)) =
        (h.versions.zipIdx.map Prod.snd).map fun j ↦ (i, j) := by
      rw [List.map_map]
      rfl
    change (h.versions.zipIdx.map fun x ↦ ((i, x.2) : Position)).Nodup
    rw [hplaces, List.zipIdx_map_snd]
    exact (List.nodup_range').map fun _ _ heq ↦ (Prod.mk.inj heq).2
  · have hpairwise : (out.zipIdx.map Prod.snd).Nodup := by
      rw [List.zipIdx_map_snd]
      exact List.nodup_range'
    rw [List.Nodup, List.pairwise_map] at hpairwise
    refine hpairwise.imp fun {a b} hne ↦ ?_
    intro place ha hb
    dsimp only at ha hb
    rw [List.map_map, List.mem_map] at ha hb
    obtain ⟨x, -, rfl⟩ := ha
    obtain ⟨y, -, heq⟩ := hb
    exact hne (Prod.mk.inj heq).1.symm

/-- A version that is kept was at another place. -/
theorem mem_withoutDoomed {out : List TabHistory} {gone : List Position} {h' : TabHistory}
    (hmem : h' ∈ withoutDoomed out gone) :
    ∃ h ∈ out, h'.tabId = h.tabId ∧ h'.versions.Sublist h.versions ∧
      ∀ w ∈ h'.versions, ∃ place, (place, w) ∈ allVersions out ∧ place ∉ gone := by
  obtain ⟨⟨h, i⟩, hzip, rfl⟩ := List.mem_map.mp (List.mem_of_mem_filter hmem)
  refine ⟨h, ?_, rfl, ?_, ?_⟩
  · have hfst := List.mem_map_of_mem (f := Prod.fst) hzip
    rwa [List.zipIdx_map_fst] at hfst
  · have hsub := (List.filter_sublist (l := h.versions.zipIdx) (p := fun x ↦ (i, x.2) ∉ gone)).map Prod.fst
    rwa [List.zipIdx_map_fst] at hsub
  · intro w hw
    obtain ⟨⟨v, j⟩, hv, rfl⟩ := List.mem_map.mp hw
    obtain ⟨hv, hplace⟩ := List.mem_filter.mp hv
    refine ⟨(i, j), ?_, by simpa using hplace⟩
    exact List.mem_flatMap.mpr ⟨(h, i), hzip, List.mem_map.mpr ⟨(v, j), hv, rfl⟩⟩

theorem tabIds_withoutDoomed (out : List TabHistory) (gone : List Position) :
    ((withoutDoomed out gone).map (·.tabId)).Sublist (out.map (·.tabId)) := by
  have hids : (out.zipIdx.map fun (h, i) ↦
      ({ h with versions := (h.versions.zipIdx.filter fun ((_, j) : TabVersion × ℕ) ↦ (i, j) ∉ gone).map Prod.fst } :
        TabHistory)).map (·.tabId) = out.map (·.tabId) := by
    rw [List.map_map]
    conv_rhs => rw [← List.zipIdx_map_fst 0 out, List.map_map]
    rfl
  rw [← hids]
  exact List.filter_sublist.map _

/-! ## The rule of space -/

theorem perm_byAge (out : List TabHistory) : (byAge out).Perm (allVersions out) := List.perm_insertionSort _ _

theorem sorted_byAge (out : List TabHistory) : (byAge out).Pairwise fun a b ↦ a.2.ts ≤ b.2.ts := by
  have htotal : Std.Total fun a b : Position × TabVersion ↦ a.2.ts ≤ b.2.ts := ⟨fun a b ↦ le_total _ _⟩
  have htrans : IsTrans (Position × TabVersion) fun a b ↦ a.2.ts ≤ b.2.ts := ⟨fun _ _ _ ↦ le_trans⟩
  exact List.pairwise_insertionSort _ _

/-- All versions by age: first those that are dropped, then those whose places stay. -/
theorem byAge_split (out : List TabHistory) (maxTotal : ℕ) :
    ∃ rest, byAge out = doomed out maxTotal ++ rest ∧
      ∀ p ∈ byAge out, p.1 ∉ (doomed out maxTotal).map (·.1) ↔ p ∈ rest :=
  evicted_split _ maxTotal Prod.fst (((perm_byAge out).map _).nodup_iff.mpr (nodup_places out))

/-- What is kept fits, and is no older than what is dropped. -/
theorem withoutDoomed_spec (out : List TabHistory) (maxTotal : ℕ) :
    totalChars (withoutDoomed out ((doomed out maxTotal).map (·.1))) ≤ maxTotal ∧
      ∀ p ∈ doomed out maxTotal, ∀ h ∈ withoutDoomed out ((doomed out maxTotal).map (·.1)), ∀ w ∈ h.versions,
        p.2.ts ≤ w.ts := by
  obtain ⟨rest, hsplit, hrest⟩ := byAge_split out maxTotal
  have htotal : totalChars out = ((byAge out).map fun p ↦ p.2.size).sum := by
    rw [totalChars_eq, ((perm_byAge out).map _).sum_eq]
  constructor
  · have hkept : (byAge out).filter (fun p ↦ p.1 ∉ (doomed out maxTotal).map (·.1)) = rest := by
      rw [hsplit, List.filter_append]
      have hgone : (doomed out maxTotal).filter (fun p ↦ p.1 ∉ (doomed out maxTotal).map (·.1)) = [] :=
        List.filter_eq_nil_iff.mpr fun p hp hnot ↦ of_decide_eq_true hnot (List.mem_map_of_mem hp)
      have hstays : rest.filter (fun p ↦ p.1 ∉ (doomed out maxTotal).map (·.1)) = rest :=
        List.filter_eq_self.mpr fun p hp ↦
          decide_eq_true ((hrest p (hsplit ▸ List.mem_append_right _ hp)).mpr hp)
      rw [hgone, hstays, List.nil_append]
    have hsum : totalChars (withoutDoomed out ((doomed out maxTotal).map (·.1))) =
        (rest.map fun p ↦ p.2.size).sum := by
      rw [totalChars_withoutDoomed, ← hkept, (((perm_byAge out).filter _).map _).sum_eq]
    have hfits : totalChars out - ((doomed out maxTotal).map fun p ↦ p.2.size).sum ≤ maxTotal :=
      evicted_fits _ maxTotal (by rw [htotal, Nat.sub_self]; exact Nat.zero_le _)
    have hall : ((byAge out).map fun p ↦ p.2.size).sum =
        ((doomed out maxTotal).map fun p ↦ p.2.size).sum + (rest.map fun p ↦ p.2.size).sum := by
      rw [← List.sum_append, ← List.map_append, ← hsplit]
    rw [hsum]
    omega
  · intro p hp h hh w hw
    obtain ⟨-, -, -, -, hplaces⟩ := mem_withoutDoomed hh
    obtain ⟨place, hplace, hnot⟩ := hplaces w hw
    have hmem : (place, w) ∈ rest := (hrest _ ((perm_byAge out).mem_iff.mpr hplace)).mp hnot
    exact evicted_le (fun p : Position × TabVersion ↦ p.2.size) maxTotal (sorted_byAge out) hsplit hp hmem

/-- The sizes of the versions of one time. -/
def charsAt (out : List TabHistory) (now : ℚ) : ℕ :=
  (((allVersions out).filter fun p ↦ p.2.ts = now).map fun p ↦ p.2.size).sum

/-- The first of the newest versions is the first of them to be dropped for space, and stays exactly if they all
fit. -/
theorem first_doomed_iff {out : List TabHistory} {first : Position × TabVersion} {others : List (Position × TabVersion)}
    (hfirst : allVersions out = first :: others) (hnewest : ∀ p ∈ allVersions out, p.2.ts ≤ first.2.ts)
    (maxTotal : ℕ) :
    first.1 ∈ (doomed out maxTotal).map (·.1) ↔ maxTotal < charsAt out first.2.ts := by
  obtain ⟨rest, hsplit, hrest⟩ := byAge_split out maxTotal
  have hmem : first ∈ byAge out := (perm_byAge out).mem_iff.mpr (hfirst ▸ .head _)
  -- by age it comes behind the older ones and before the others of its time
  obtain ⟨before, after, hage, hbefore, hafter⟩ : ∃ before after, byAge out = before ++ first :: after ∧
      (∀ p ∈ before, p.2.ts < first.2.ts) ∧ ∀ p ∈ after, p.2.ts = first.2.ts := by
    have hinsert : byAge out = ((others.insertionSort fun a b ↦ a.2.ts ≤ b.2.ts).takeWhile
        fun b ↦ ¬ first.2.ts ≤ b.2.ts) ++ first ::
          (others.insertionSort fun a b ↦ a.2.ts ≤ b.2.ts).dropWhile fun b ↦ ¬ first.2.ts ≤ b.2.ts := by
      rw [byAge, hfirst]
      exact List.orderedInsert_eq_take_drop _ _ _
    refine ⟨_, _, hinsert, fun p hp ↦ ?_, fun p hp ↦ ?_⟩
    · simpa using List.mem_takeWhile_imp hp
    · have hsorted := sorted_byAge out
      rw [hinsert] at hsorted
      have hle := (List.pairwise_cons.mp (List.pairwise_append.mp hsorted).2.1).1 p hp
      refine le_antisymm (hnewest p ((perm_byAge out).mem_iff.mp ?_)) hle
      rw [hinsert]
      exact List.mem_append_right _ (.tail _ hp)
  have hdoomed : first.1 ∈ (doomed out maxTotal).map (·.1) ↔ before.length < (doomed out maxTotal).length := by
    constructor
    · intro hgone
      by_contra hge
      push Not at hge
      have hbeginning : doomed out maxTotal <+: before :=
        List.prefix_of_prefix_length_le ⟨rest, hsplit.symm⟩ ⟨first :: after, hage.symm⟩ hge
      have hnot : first ∉ rest := fun hmemRest ↦ (hrest first hmem).mpr hmemRest hgone
      have hin : first ∈ doomed out maxTotal := by
        rw [hsplit] at hmem
        exact (List.mem_append.mp hmem).resolve_right hnot
      exact (hbefore first (hbeginning.subset hin)).ne rfl
    · intro hlt
      have hbeginning : before ++ [first] <+: doomed out maxTotal := by
        refine List.prefix_of_prefix_length_le ⟨after, ?_⟩ ⟨rest, hsplit.symm⟩ ?_
        · rw [hage, List.append_assoc, List.singleton_append]
        · rw [List.length_append, List.length_singleton]
          exact hlt
      exact List.mem_map_of_mem (hbeginning.subset (List.mem_append_right _ (.head _)))
  have htotal : totalChars out = ((byAge out).map fun p ↦ p.2.size).sum := by
    rw [totalChars_eq, ((perm_byAge out).map _).sum_eq]
  have hnow : charsAt out first.2.ts = ((first :: after).map fun p ↦ p.2.size).sum := by
    have hfilter : (byAge out).filter (fun p ↦ p.2.ts = first.2.ts) = first :: after := by
      rw [hage, List.filter_append]
      have hnone : before.filter (fun p ↦ p.2.ts = first.2.ts) = [] :=
        List.filter_eq_nil_iff.mpr fun p hp ↦ by simpa using (hbefore p hp).ne
      have hall : (first :: after).filter (fun p ↦ p.2.ts = first.2.ts) = first :: after :=
        List.filter_eq_self.mpr fun p hp ↦ by
          rcases List.mem_cons.mp hp with rfl | hp
          · simp
          · simpa using hafter p hp
      rw [hnone, hall, List.nil_append]
    rw [charsAt, ← hfilter, (((perm_byAge out).filter _).map _).sum_eq]
  have hlength : before.length < (byAge out).length := by
    rw [hage, List.length_append, List.length_cons]
    omega
  have hover : totalChars out - (((byAge out).take before.length).map fun p ↦ p.2.size).sum =
      charsAt out first.2.ts := by
    rw [htotal, hnow, hage, List.take_left, List.map_append, List.sum_append, Nat.add_sub_cancel_left]
  rw [hdoomed, doomed, lt_length_evicted_iff, hover]
  exact and_iff_right hlength

/-! ## Recording -/

/-- What holds of every list: a tab is there once, its versions are newest first, and none is of the future. -/
structure Tidy (list : List TabHistory) (now : ℚ) : Prop where
  tabs : (list.map (·.tabId)).Nodup
  newestFirst : ∀ h ∈ list, h.versions.Pairwise fun v w ↦ w.ts ≤ v.ts
  past : ∀ h ∈ list, ∀ v ∈ h.versions, v.ts ≤ now

/-- Fewer versions of some of the tabs. -/
theorem Tidy.of_sublist {list list' : List TabHistory} {now : ℚ} (h : Tidy list now)
    (htabs : (list'.map (·.tabId)).Sublist (list.map (·.tabId)))
    (hversions : ∀ h' ∈ list', ∃ h ∈ list, h'.versions.Sublist h.versions) : Tidy list' now where
  tabs := htabs.nodup h.tabs
  newestFirst h' hmem := by
    obtain ⟨tab, htab, hsub⟩ := hversions h' hmem
    exact (h.newestFirst tab htab).sublist hsub
  past h' hmem v hv := by
    obtain ⟨tab, htab, hsub⟩ := hversions h' hmem
    exact h.past tab htab v (hsub.subset hv)

theorem mem_trimmed {list : List TabHistory} {retention : Retention} {now : ℚ} {h' : TabHistory}
    (h : h' ∈ trimmed list retention now) : ∃ h ∈ list, h'.tabId = h.tabId ∧
      h'.versions = (h.versions.filter (isFresh retention now)).take retention.maxVersions.toNat := by
  obtain ⟨tab, htab, rfl⟩ := List.mem_map.mp (List.mem_of_mem_filter h)
  exact ⟨tab, htab, rfl, rfl⟩

theorem Tidy.trimmed {list : List TabHistory} {now : ℚ} (h : Tidy list now) (retention : Retention) :
    Tidy (trimmed list retention now) now := by
  refine h.of_sublist ?_ fun h' hmem ↦ ?_
  · have hids : (list.map fun h ↦
        ({ h with versions := (h.versions.filter (isFresh retention now)).take retention.maxVersions.toNat } :
          TabHistory)).map (·.tabId) = list.map (·.tabId) := by
      rw [List.map_map]
      rfl
    rw [← hids]
    exact List.filter_sublist.map _
  · obtain ⟨tab, htab, -, hversions⟩ := mem_trimmed hmem
    rw [hversions]
    exact ⟨tab, htab, (List.take_sublist _ _).trans List.filter_sublist⟩

theorem Tidy.pruneHistory {list : List TabHistory} {now : ℚ} (h : Tidy list now) (retention : Retention)
    (maxTotal : ℕ) : Tidy (pruneHistory list retention now maxTotal) now := by
  unfold LocalHistory.pruneHistory
  dsimp only
  split_ifs
  · exact h.trimmed retention
  · refine (h.trimmed retention).of_sublist (tabIds_withoutDoomed _ _) fun h' hmem ↦ ?_
    obtain ⟨tab, htab, -, hsub, -⟩ := mem_withoutDoomed hmem
    exact ⟨tab, htab, hsub⟩

theorem not_mem_eraseP {list : List TabHistory} (h : (list.map (·.tabId)).Nodup) (id : ℤ) :
    id ∉ (list.eraseP fun tab ↦ tab.tabId = id).map (·.tabId) := by
  induction list with
  | nil => exact List.not_mem_nil
  | cons tab list ih =>
    rw [List.map_cons, List.nodup_cons] at h
    by_cases hid : tab.tabId = id
    · rw [List.eraseP_cons_of_pos (by simpa using hid), ← hid]
      exact h.1
    · rw [List.eraseP_cons_of_neg (by simpa using hid), List.map_cons, List.mem_cons, not_or]
      exact ⟨fun heq ↦ hid heq.symm, ih h.2⟩

theorem Tidy.withVersion {list : List TabHistory} {now : ℚ} (h : Tidy list now) {call : Call} (hnow : now ≤ call.now) :
    Tidy (withVersion list call) call.now := by
  have hold : ∀ v ∈ ((list.find? fun h ↦ h.tabId = call.id).map (·.versions)).getD [], v.ts ≤ now := by
    cases hfind : list.find? fun h ↦ h.tabId = call.id with
    | none => exact nofun
    | some own => exact h.past own (List.mem_of_find?_eq_some hfind)
  have hsorted : (((list.find? fun h ↦ h.tabId = call.id).map (·.versions)).getD []).Pairwise
      fun v w ↦ w.ts ≤ v.ts := by
    cases hfind : list.find? fun h ↦ h.tabId = call.id with
    | none => exact .nil
    | some own => exact h.newestFirst own (List.mem_of_find?_eq_some hfind)
  have hrest {tab : TabHistory} (htab : tab ∈ list.eraseP fun h ↦ h.tabId = call.id) : tab ∈ list :=
    List.eraseP_subset htab
  unfold LocalHistory.withVersion
  constructor
  · rw [List.map_cons, List.nodup_cons]
    exact ⟨not_mem_eraseP h.tabs call.id, (List.eraseP_sublist.map _).nodup h.tabs⟩
  · rw [List.forall_mem_cons]
    exact ⟨List.pairwise_cons.mpr ⟨fun w hw ↦ (hold w hw).trans hnow, hsorted⟩,
      fun tab htab ↦ h.newestFirst tab (hrest htab)⟩
  · rw [List.forall_mem_cons, List.forall_mem_cons]
    exact ⟨⟨le_rfl, fun w hw ↦ (hold w hw).trans hnow⟩, fun tab htab v hv ↦ (h.past tab (hrest htab) v hv).trans hnow⟩

theorem recordVersion_cases (list : List TabHistory) (call : Call) :
    (recordVersion list call).2 ≠ .recorded ∧ (recordVersion list call).1 = list ∨
      (recordVersion list call).2 = .recorded ∧ 0 < call.retention.maxVersions ∧
        (recordVersion list call).1 =
          pruneHistory (withVersion list call) call.retention call.now maxTotalChars := by
  unfold recordVersion
  dsimp only
  split_ifs with hdisabled
  · exact .inl ⟨nofun, rfl⟩
  · exact .inl ⟨nofun, rfl⟩
  · exact .inl ⟨nofun, rfl⟩
  · exact .inl ⟨nofun, rfl⟩
  · exact .inr ⟨rfl, not_le.mp hdisabled, rfl⟩

theorem Tidy.recordVersion {list : List TabHistory} {now : ℚ} (h : Tidy list now) {call : Call}
    (hnow : now ≤ call.now) : Tidy (recordVersion list call).1 call.now := by
  rcases recordVersion_cases list call with ⟨-, hsame⟩ | ⟨-, -, hpruned⟩
  · rw [hsame]
    exact ⟨h.tabs, h.newestFirst, fun tab htab v hv ↦ (h.past tab htab v hv).trans hnow⟩
  · rw [hpruned]
    exact (h.withVersion hnow).pruneHistory _ _

/-- What a call is to keep. -/
structure Retained (list : List TabHistory) (call : Call) : Prop where
  tabs : ((recordVersion list call).1.map (·.tabId)).Nodup
  newestFirst : ∀ h ∈ (recordVersion list call).1, h.versions.Pairwise fun v w ↦ w.ts ≤ v.ts
  limits : (recordVersion list call).2 = .recorded →
    totalChars (recordVersion list call).1 ≤ maxTotalChars ∧
      ∀ h ∈ (recordVersion list call).1, h.versions.length ≤ call.retention.maxVersions ∧
        ∀ v ∈ h.versions, 0 < call.retention.maxDays → call.now - call.retention.maxDays * dayMs ≤ v.ts
  recorded : (recordVersion list call).2 = .recorded →
    ∃ h ∈ (recordVersion list call).1, h.tabId = call.id ∧ (h.versions.head?).map (·.sql) = some call.sql
  unchanged : (recordVersion list call).2 ≠ .recorded → (recordVersion list call).1 = list
  oldestDropped : (recordVersion list call).2 = .recorded →
    ∀ p ∈ doomed (trimmed (withVersion list call) call.retention call.now) maxTotalChars,
      ∀ h ∈ (recordVersion list call).1, ∀ w ∈ h.versions, p.2.ts ≤ w.ts

/-- The new version is first after the rules of age and number. -/
theorem trimmed_withVersion (list : List TabHistory) {call : Call} (h : 0 < call.retention.maxVersions) :
    ∃ title more others, trimmed (withVersion list call) call.retention call.now =
      { tabId := call.id, title := title
        versions := { ts := call.now, reason := call.reason, sql := call.sql } :: more } :: others := by
  have hfresh : isFresh call.retention call.now { ts := call.now, reason := call.reason, sql := call.sql } = true := by
    unfold isFresh
    rw [Bool.or_eq_true, decide_eq_true_eq, decide_eq_true_eq]
    refine (le_or_gt call.retention.maxDays 0).imp id fun hdays ↦ ?_
    have hage : 0 ≤ call.retention.maxDays * dayMs := mul_nonneg hdays.le (by unfold dayMs; norm_num)
    exact sub_le_self _ hage
  obtain ⟨keep, hkeep⟩ := Nat.exists_eq_add_one.mpr (by omega : 0 < call.retention.maxVersions.toNat)
  unfold trimmed withVersion
  dsimp only
  rw [List.map_cons, List.filter_cons_of_pos hfresh, hkeep, List.take_succ_cons, List.filter_cons_of_pos (by simp)]
  exact ⟨_, _, _, rfl⟩

/-- What the limits of a list are, where its versions are some of those of a list trimmed by age and number. -/
theorem limits_of_sublist {list list' : List TabHistory} {retention : Retention} {now : ℚ}
    (hversions : ∀ h' ∈ list', ∃ h ∈ trimmed list retention now, h'.versions.Sublist h.versions)
    (hpos : 0 < retention.maxVersions) :
    ∀ h ∈ list', h.versions.length ≤ retention.maxVersions ∧
      ∀ v ∈ h.versions, 0 < retention.maxDays → now - retention.maxDays * dayMs ≤ v.ts := by
  intro h' hmem
  obtain ⟨h, hh, hsub⟩ := hversions h' hmem
  obtain ⟨tab, -, -, hkept⟩ := mem_trimmed hh
  rw [hkept] at hsub
  constructor
  · have hle := hsub.length_le.trans (List.length_take_le _ _)
    omega
  · intro v hv hdays
    have hmem := List.mem_of_mem_take (hsub.subset hv)
    have hfresh := (List.mem_filter.mp hmem).2
    unfold isFresh at hfresh
    rw [Bool.or_eq_true, decide_eq_true_eq, decide_eq_true_eq] at hfresh
    exact hfresh.resolve_left hdays.not_ge

/-- The text that the new version has, of all versions of its time that the rules of age and number keep. -/
def charsNow (list : List TabHistory) (call : Call) : ℕ :=
  charsAt (trimmed (withVersion list call) call.retention call.now) call.now

theorem retained_of_charsNow {list : List TabHistory} {now : ℚ} (h : Tidy list now) {call : Call} (hnow : now ≤ call.now)
    (hfits : (recordVersion list call).2 = .recorded → charsNow list call ≤ maxTotalChars) : Retained list call := by
  have htidy := h.recordVersion hnow
  rcases recordVersion_cases list call with ⟨hnot, hsame⟩ | ⟨hrecorded, hpos, hpruned⟩
  · exact ⟨htidy.tabs, htidy.newestFirst, fun h ↦ absurd h hnot, fun h ↦ absurd h hnot, fun _ ↦ hsame,
      fun h ↦ absurd h hnot⟩
  have hfits := hfits hrecorded
  unfold charsNow at hfits
  have hout := (h.withVersion hnow).trimmed call.retention
  obtain ⟨title, more, others, hfirst⟩ := trimmed_withVersion list hpos
  unfold pruneHistory at hpruned
  dsimp only at hpruned
  generalize hlist : trimmed (withVersion list call) call.retention call.now = out at hfits hout hfirst hpruned
  split_ifs at hpruned with hsmall
  · refine ⟨htidy.tabs, htidy.newestFirst, fun _ ↦ ?_, fun _ ↦ ?_, fun hnot ↦ absurd hrecorded hnot, fun _ ↦ ?_⟩
    · rw [hpruned]
      refine ⟨hsmall, limits_of_sublist (fun h' hmem ↦ ⟨h', hlist.symm ▸ hmem, .refl _⟩) hpos⟩
    · rw [hpruned, hfirst]
      exact ⟨_, .head _, rfl, rfl⟩
    · intro p hp
      rw [hlist, doomed, evicted_of_fits _ _ hsmall] at hp
      cases hp
  · obtain ⟨hfit, holdest⟩ := withoutDoomed_spec out maxTotalChars
    refine ⟨htidy.tabs, htidy.newestFirst, fun _ ↦ ?_, fun _ ↦ ?_, fun hnot ↦ absurd hrecorded hnot, fun _ ↦ ?_⟩
    · rw [hpruned]
      have hsublist : ∀ h' ∈ withoutDoomed out ((doomed out maxTotalChars).map (·.1)),
          ∃ h ∈ trimmed (withVersion list call) call.retention call.now, h'.versions.Sublist h.versions := by
        intro h' hmem
        obtain ⟨tab, htab, -, hsub, -⟩ := mem_withoutDoomed hmem
        exact ⟨tab, hlist.symm ▸ htab, hsub⟩
      exact ⟨hfit, limits_of_sublist hsublist hpos⟩
    · have hplaces : ∃ rest, allVersions out =
          ((0, 0), { ts := call.now, reason := call.reason, sql := call.sql }) :: rest := by
        rw [hfirst]
        exact ⟨_, rfl⟩
      obtain ⟨rest, hrest⟩ := hplaces
      have hnewest : ∀ p ∈ allVersions out, p.2.ts ≤ call.now := by
        intro p hp
        obtain ⟨⟨tab, i⟩, htab, hp⟩ := List.mem_flatMap.mp hp
        obtain ⟨⟨v, j⟩, hv, rfl⟩ := List.mem_map.mp hp
        have htab := List.mem_map_of_mem (f := Prod.fst) htab
        have hv := List.mem_map_of_mem (f := Prod.fst) hv
        rw [List.zipIdx_map_fst] at htab hv
        exact hout.past tab htab v hv
      have hstays := mt (first_doomed_iff hrest hnewest maxTotalChars).mp hfits.not_gt
      rw [hpruned]
      generalize (doomed out maxTotalChars).map (·.1) = gone at hstays
      rw [hfirst]
      obtain ⟨rest', hkept⟩ : ∃ rest', ((({ ts := call.now, reason := call.reason, sql := call.sql } :: more).zipIdx.filter
          fun ((_, j) : TabVersion × ℕ) ↦ (0, j) ∉ gone).map Prod.fst) =
            { ts := call.now, reason := call.reason, sql := call.sql } :: rest' := by
        rw [List.zipIdx_cons, List.filter_cons_of_pos (by simpa using hstays)]
        exact ⟨_, rfl⟩
      refine ⟨_, List.mem_filter.mpr ⟨.head _, decide_eq_true fun hnil ↦ ?_⟩, rfl, ?_⟩
      · exact absurd (hkept.symm.trans hnil) (List.cons_ne_nil _ _)
      · exact congrArg (fun versions ↦ versions.head?.map (·.sql)) hkept
    · rw [hlist, hpruned]
      exact holdest

/-! ## Sequences of calls -/

theorem historyAfter_concat (calls : List Call) (call : Call) :
    historyAfter (calls ++ [call]) = (recordVersion (historyAfter calls) call).1 := by
  rw [historyAfter, List.foldl_append]
  rfl

theorem tidy_historyAfter {calls : List Call} (hclock : calls.Pairwise fun a b ↦ a.now ≤ b.now) {now : ℚ}
    (hnow : ∀ call ∈ calls, call.now ≤ now) : Tidy (historyAfter calls) now := by
  induction calls using List.reverseRecOn generalizing now with
  | nil => exact ⟨.nil, nofun, nofun⟩
  | append_singleton calls call ih =>
    obtain ⟨hcalls, -, hlast⟩ := List.pairwise_append.mp hclock
    have hbefore := ih hcalls fun earlier hmem ↦ hlast earlier hmem call (.head _)
    have hstep := hbefore.recordVersion le_rfl
    rw [historyAfter_concat]
    have hle := hnow call (List.mem_append_right _ (.head _))
    exact ⟨hstep.tabs, hstep.newestFirst, fun tab htab v hv ↦ (hstep.past tab htab v hv).trans hle⟩

/-- In a sequence of calls in which the versions of one time never come to more than the limit of everything, every
call keeps what it is to keep. -/
theorem historyAfter_retained {calls : List Call} (hclock : calls.Pairwise fun a b ↦ a.now ≤ b.now)
    (hfits : ∀ i (hi : i < calls.length), (recordVersion (historyAfter (calls.take i)) calls[i]).2 = .recorded →
      charsNow (historyAfter (calls.take i)) calls[i] ≤ maxTotalChars) :
    ∀ i (hi : i < calls.length), Retained (historyAfter (calls.take i)) calls[i] := by
  intro i hi
  have hsplit : calls.take i ++ calls[i] :: calls.drop (i + 1) = calls := by
    rw [← List.drop_eq_getElem_cons hi, List.take_append_drop]
  rw [← hsplit] at hclock
  obtain ⟨hbefore, -, hlast⟩ := List.pairwise_append.mp hclock
  have htidy : Tidy (historyAfter (calls.take i)) calls[i].now :=
    tidy_historyAfter hbefore fun earlier hmem ↦ hlast earlier hmem calls[i] (.head _)
  exact retained_of_charsNow htidy le_rfl (hfits i hi)

/-- A snapshot at the time nought. -/
def snapshot (id : ℤ) (sql : Text) : Call where
  id := id
  title := []
  sql := sql
  reason := .auto
  now := 0
  retention := ⟨5, 0⟩

/-- Two tabs. -/
def twoTabs : List Call := [snapshot 1 "a".toList, snapshot 2 "b".toList]

theorem historyAfter_retained_twoTabs : Retained (historyAfter [snapshot 1 "a".toList]) (snapshot 2 "b".toList) :=
  @historyAfter_retained twoTabs (by decide +kernel) (by decide +kernel) 1 (by decide)

/-! ## Eleven tabs at one time -/

/-- The tab of a snapshot. -/
def tabOf (sql : Text) (i : ℕ) : TabHistory where
  tabId := i
  title := []
  versions := [{ ts := 0, reason := .auto, sql := sql }]

/-- The snapshots of the tabs before number `n`. -/
def snapshots (sql : Text) (n : ℕ) : List Call := (List.range n).map fun i : ℕ ↦ snapshot i sql

section Snapshots

variable (long : Text)

theorem totalChars_tabsOf (n : ℕ) :
    totalChars ((List.range n).reverse.map (tabOf long)) = n * jsLength long := by
  have hsize : ((fun h : TabHistory ↦ (h.versions.map TabVersion.size).sum) ∘ tabOf long) = fun _ ↦ jsLength long := by
    funext i
    exact List.sum_singleton
  rw [totalChars, List.map_map, hsize, List.map_const', List.sum_replicate, List.length_reverse, List.length_range,
    Nat.nsmul_eq_mul]

/-- A snapshot of another tab, as the lists below have them. -/
theorem withVersion_snapshot (n : ℕ) (sql : Text) :
    withVersion ((List.range n).reverse.map (tabOf long)) (snapshot n sql) =
      { tabId := n, title := [], versions := [{ ts := 0, reason := .auto, sql := sql }] } ::
        (List.range n).reverse.map (tabOf long) := by
  have hother : ∀ h ∈ (List.range n).reverse.map (tabOf long), h.tabId ≠ (n : ℤ) := by
    intro h hmem
    obtain ⟨i, hi, rfl⟩ := List.mem_map.mp hmem
    rw [List.mem_reverse, List.mem_range] at hi
    unfold tabOf
    dsimp only
    omega
  have hfind : ((List.range n).reverse.map (tabOf long)).find? (fun h ↦ h.tabId = (snapshot n sql).id) = none :=
    List.find?_eq_none.mpr fun h hmem ↦ fun heq ↦ hother h hmem (of_decide_eq_true heq)
  have herase : ((List.range n).reverse.map (tabOf long)).eraseP (fun h ↦ h.tabId = (snapshot n sql).id) =
      (List.range n).reverse.map (tabOf long) :=
    List.eraseP_of_forall_not fun h hmem ↦ fun heq ↦ hother h hmem (of_decide_eq_true heq)
  rw [withVersion, hfind, herase]
  rfl

theorem trimmed_snapshot (n : ℕ) (sql : Text) :
    trimmed (withVersion ((List.range n).reverse.map (tabOf long)) (snapshot n sql)) (snapshot n sql).retention 0 =
      withVersion ((List.range n).reverse.map (tabOf long)) (snapshot n sql) := by
  have hone : ∀ h ∈ withVersion ((List.range n).reverse.map (tabOf long)) (snapshot n sql), ∃ v, h.versions = [v] := by
    rw [withVersion_snapshot]
    intro h hmem
    rcases List.mem_cons.mp hmem with rfl | hmem
    · exact ⟨_, rfl⟩
    · obtain ⟨i, -, rfl⟩ := List.mem_map.mp hmem
      exact ⟨_, rfl⟩
  have hfresh (v : TabVersion) : isFresh (snapshot n sql).retention 0 v = true := rfl
  calc trimmed (withVersion ((List.range n).reverse.map (tabOf long)) (snapshot n sql)) (snapshot n sql).retention 0
      = ((withVersion ((List.range n).reverse.map (tabOf long)) (snapshot n sql)).map id).filter
          fun h ↦ h.versions ≠ [] := by
        refine congrArg _ (List.map_congr_left fun h hmem ↦ ?_)
        obtain ⟨v, hv⟩ := hone h hmem
        cases h
        dsimp only at hv
        subst hv
        rw [List.filter_cons_of_pos (hfresh v)]
        rfl
    _ = withVersion ((List.range n).reverse.map (tabOf long)) (snapshot n sql) := by
        rw [List.map_id, List.filter_eq_self]
        intro h hmem
        obtain ⟨v, hv⟩ := hone h hmem
        simp [hv]

theorem recordVersion_snapshot (n : ℕ) {sql : Text} (hblank : jsTrim sql ≠ []) (hsize : jsLength sql ≤ 100000) :
    recordVersion ((List.range n).reverse.map (tabOf long)) (snapshot n sql) =
      (pruneHistory (withVersion ((List.range n).reverse.map (tabOf long)) (snapshot n sql)) (snapshot n sql).retention 0
        maxTotalChars, .recorded) := by
  have hfind : ((List.range n).reverse.map (tabOf long)).find? (fun h ↦ h.tabId = (snapshot n sql).id) = none := by
    refine List.find?_eq_none.mpr fun h hmem ↦ ?_
    obtain ⟨i, hi, rfl⟩ := List.mem_map.mp hmem
    rw [List.mem_reverse, List.mem_range] at hi
    have hne : (i : ℤ) ≠ n := by omega
    simpa [snapshot, tabOf] using hne
  unfold recordVersion
  dsimp only
  have hon : ¬ (snapshot n sql).retention.maxVersions ≤ 0 := show ¬ (5 : ℤ) ≤ 0 by decide
  have hshort : ¬ maxVersionChars < jsLength (snapshot n sql).sql := not_lt.mpr hsize
  have hblank : jsTrim (snapshot n sql).sql ≠ [] := hblank
  rw [if_neg hon, if_neg hblank, if_neg hshort, hfind]
  rfl

theorem historyAfter_snapshots (hblank : jsTrim long ≠ []) (hlong : jsLength long ≤ 100000) {n : ℕ} (hn : n ≤ 10) :
    historyAfter (snapshots long n) = (List.range n).reverse.map (tabOf long) := by
  induction n with
  | zero => rfl
  | succ n ih =>
    have hsucc : withVersion ((List.range n).reverse.map (tabOf long)) (snapshot n long) =
        (List.range (n + 1)).reverse.map (tabOf long) := by
      rw [withVersion_snapshot, List.range_succ, List.reverse_append]
      rfl
    have hfits : totalChars ((List.range (n + 1)).reverse.map (tabOf long)) ≤ maxTotalChars := by
      rw [totalChars_tabsOf long]
      unfold maxTotalChars
      exact (Nat.mul_le_mul hn hlong).trans le_rfl
    unfold snapshots at *
    rw [List.range_succ, List.map_append, List.map_singleton, historyAfter_concat, ih (by omega),
      recordVersion_snapshot long n hblank hlong, pruneHistory]
    dsimp only
    rw [trimmed_snapshot, hsucc, if_pos hfits, List.range_succ]

/-- An eleventh tab has no room beside ten of the longest text. -/
theorem not_recorded_of_full (hlong : jsLength long = 100000) {sql : Text} (hblank : jsTrim sql ≠ []) (hsize : jsLength sql < 100000) (hpos : 0 < jsLength sql)
    {h : TabHistory} (hmem : h ∈ (recordVersion ((List.range 10).reverse.map (tabOf long)) (snapshot (10 : ℕ) sql)).1) :
    (h.versions.head?).map (·.sql) ≠ some sql := by
  have hkept : trimmed (withVersion ((List.range 10).reverse.map (tabOf long)) (snapshot (10 : ℕ) sql))
      (snapshot (10 : ℕ) sql).retention 0 = _ := trimmed_snapshot long 10 sql
  rw [recordVersion_snapshot long 10 hblank hsize.le, pruneHistory] at hmem
  dsimp only at hmem
  rw [hkept, withVersion_snapshot] at hmem
  generalize hout : ({ tabId := (10 : ℕ), title := [], versions := [{ ts := 0, reason := .auto, sql := sql }] } ::
    (List.range 10).reverse.map (tabOf long) : List TabHistory) = out at hmem
  have htotal : totalChars out = jsLength sql + 1000000 := by
    have hten := totalChars_tabsOf long 10
    unfold totalChars at hten ⊢
    rw [← hout, List.map_cons, List.sum_cons, hten, hlong]
    rfl
  rw [if_neg (by rw [htotal, maxTotalChars]; omega)] at hmem
  have hversions : allVersions out = ((0, 0), { ts := 0, reason := .auto, sql := sql }) ::
      (((List.range 10).reverse.map (tabOf long)).zipIdx 1).flatMap
        fun (h, i) ↦ h.versions.zipIdx.map fun (v, j) ↦ ((i, j), v) := by
    rw [← hout]
    rfl
  have hother : ∀ p ∈ (((List.range 10).reverse.map (tabOf long)).zipIdx 1).flatMap
      (fun (h, i) ↦ h.versions.zipIdx.map fun (v, j) ↦ (((i, j), v) : Position × TabVersion)),
      p.2.ts = 0 ∧ p.2.sql = long := by
    intro p hp
    obtain ⟨⟨tab, i⟩, htab, hp⟩ := List.mem_flatMap.mp hp
    obtain ⟨⟨v, j⟩, hv, rfl⟩ := List.mem_map.mp hp
    have htab := List.mem_map_of_mem (f := Prod.fst) htab
    have hv := List.mem_map_of_mem (f := Prod.fst) hv
    rw [List.zipIdx_map_fst] at htab hv
    obtain ⟨k, -, rfl⟩ := List.mem_map.mp htab
    have hv : v = { ts := 0, reason := .auto, sql := long } := List.mem_singleton.mp hv
    rw [hv]
    exact ⟨rfl, rfl⟩
  have hnow : ∀ p ∈ allVersions out, p.2.ts = 0 := by
    rw [hversions, List.forall_mem_cons]
    exact ⟨rfl, fun p hp ↦ (hother p hp).1⟩
  have hcharsAt : charsAt out 0 = jsLength sql + 1000000 := by
    rw [charsAt, List.filter_eq_self.mpr fun p hp ↦ decide_eq_true (hnow p hp), ← totalChars_eq, htotal]
  have hdoomed : ((0, 0) : Position) ∈ (doomed out maxTotalChars).map (·.1) := by
    refine (first_doomed_iff hversions (fun p hp ↦ (hnow p hp).le) maxTotalChars).mpr ?_
    rw [hcharsAt, maxTotalChars]
    omega
  intro hhead
  obtain ⟨-, -, -, -, hplaces⟩ := mem_withoutDoomed hmem
  obtain ⟨w, hw, hsql⟩ := Option.map_eq_some_iff.mp hhead
  obtain ⟨place, hplace, hnot⟩ := hplaces w (List.mem_of_mem_head? hw)
  rw [hversions, List.mem_cons] at hplace
  rcases hplace with hfirst | hplace
  · have hzero : place = (0, 0) := congrArg Prod.fst hfirst
    exact hnot (hzero ▸ hdoomed)
  · have hsame : w.sql = long := (hother _ hplace).2
    rw [← hsql, hsame, hlong] at hsize
    exact lt_irrefl _ hsize

end Snapshots

/-- The longest text of a version. -/
def longText : Text := List.replicate maxVersionChars 'x'

theorem jsLength_longText : jsLength longText = 100000 := by
  unfold jsLength longText
  rw [List.map_replicate, List.sum_replicate]
  rfl

theorem jsTrim_longText : jsTrim longText ≠ [] := by
  have hx : isJsSpace 'x' = false := by decide
  have hfront {n : ℕ} : (List.replicate n 'x').dropWhile isJsSpace = List.replicate n 'x' := by
    rw [List.dropWhile_replicate, if_neg (by rw [hx]; exact Bool.false_ne_true)]
  unfold longText maxVersionChars jsTrim jsTrimEnd jsTrimStart
  rw [hfront, List.rdropWhile, List.reverse_replicate, hfront, List.reverse_replicate]
  exact List.cons_ne_nil _ _

/-- Ten tabs with the longest text, and then one more. -/
def elevenTabs : List Call := snapshots longText 10 ++ [snapshot 10 "y".toList]

/-- The version of the eleventh tab is dropped for space, although its outcome is that it is recorded. -/
theorem elevenTabs_not_retained : ¬ ∀ calls : List Call, calls.Pairwise (fun a b ↦ a.now ≤ b.now) →
    ∀ i (hi : i < calls.length), Retained (historyAfter (calls.take i)) calls[i] := by
  intro hall
  have hlength : (snapshots longText 10).length = 10 := by rw [snapshots, List.length_map, List.length_range]
  have hclock : elevenTabs.Pairwise fun a b ↦ a.now ≤ b.now := by
    have hzero : ∀ call ∈ elevenTabs, call.now = 0 := by
      intro call hmem
      rcases List.mem_append.mp hmem with hmem | hmem
      · obtain ⟨i, -, rfl⟩ := List.mem_map.mp hmem
        rfl
      · rw [List.mem_singleton.mp hmem]
        rfl
    exact List.pairwise_of_forall_mem_list fun a ha b hb ↦ by rw [hzero a ha, hzero b hb]
  have htake : elevenTabs.take 10 = snapshots longText 10 := by
    rw [elevenTabs, List.take_append_of_le_length (by rw [hlength]), List.take_of_length_le (by rw [hlength])]
  have hget : elevenTabs[10]? = some (snapshot 10 "y".toList) := by
    rw [elevenTabs, List.getElem?_append_right (by rw [hlength]), hlength]
    rfl
  obtain ⟨hten, hlast⟩ := List.getElem?_eq_some_iff.mp hget
  have hretained := hall elevenTabs hclock 10 hten
  rw [htake, hlast, historyAfter_snapshots longText jsTrim_longText jsLength_longText.le le_rfl] at hretained
  have hrun := recordVersion_snapshot longText 10 (show jsTrim "y".toList ≠ [] by decide) (by decide)
  obtain ⟨h, hmem, -, hfirst⟩ := hretained.recorded (congrArg Prod.snd hrun)
  exact not_recorded_of_full longText jsLength_longText (show jsTrim "y".toList ≠ [] by decide) (by decide) (by decide) hmem hfirst

end Squaero.Front.LocalHistory
