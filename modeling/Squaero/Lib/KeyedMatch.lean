import Mathlib.Data.List.Dedup
import Mathlib.Data.List.NodupEquivFin
import Mathlib.Data.List.Perm.Basic
import Mathlib.Order.MinMax

/-!
# Rows matched by their keys

Two lists of keys are matched key by key, where a key is the only one of its kind on both sides. Each index of
either side has one fate, and exchanging the sides exchanges the fates.
-/

namespace Squaero.Lib

inductive Fate
  | duplicateLeft (l : ℕ)
  | duplicateRight (r : ℕ)
  | removed (l : ℕ)
  | added (r : ℕ)
  | paired (l r : ℕ)
  deriving DecidableEq, Repr

namespace Fate

def left : Fate → Option ℕ
  | duplicateLeft l => some l
  | removed l => some l
  | paired l _ => some l
  | _ => none

def right : Fate → Option ℕ
  | duplicateRight r => some r
  | added r => some r
  | paired _ r => some r
  | _ => none

def swap : Fate → Fate
  | duplicateLeft l => duplicateRight l
  | duplicateRight r => duplicateLeft r
  | removed l => added l
  | added r => removed r
  | paired l r => paired r l

@[simp]
theorem swap_swap (f : Fate) : f.swap.swap = f := by
  cases f <;> rfl

@[simp]
theorem right_swap (f : Fate) : f.swap.right = f.left := by
  cases f <;> rfl

theorem swap_injective : Function.Injective swap := Function.LeftInverse.injective swap_swap

end Fate

/-! ## By position -/

/-- Row `i` of one side with row `i` of the other, of `m` and `n` rows. -/
def matchPositions (m n : ℕ) : List Fate :=
  (List.range (max m n)).map fun i ↦ if n ≤ i then .removed i else if m ≤ i then .added i else .paired i i

theorem matchPositions_swap (m n : ℕ) : (matchPositions n m).map Fate.swap = matchPositions m n := by
  unfold matchPositions
  rw [List.map_map, max_comm]
  refine List.map_congr_left fun i hi ↦ ?_
  rw [List.mem_range] at hi
  simp only [Function.comp_apply]
  split_ifs <;> first | rfl | omega

theorem matchPositions_left (m n : ℕ) : (matchPositions m n).filterMap Fate.left = List.range m := by
  unfold matchPositions
  have hsize : max m n = m + (n - m) := by omega
  rw [List.filterMap_map, hsize, List.range_add, List.filterMap_append, List.filterMap_map]
  have hfirst : ∀ i ∈ List.range m, (Fate.left ∘ fun i ↦
      if n ≤ i then .removed i else if m ≤ i then .added i else .paired i i) i = some i := by
    intro i hi
    rw [List.mem_range] at hi
    simp only [Function.comp_apply]
    split_ifs <;> first | rfl | omega
  have hrest : ∀ j ∈ List.range (n - m), ((Fate.left ∘ fun i ↦
      if n ≤ i then .removed i else if m ≤ i then .added i else .paired i i) ∘ (m + ·)) j = none := by
    intro j hj
    rw [List.mem_range] at hj
    simp only [Function.comp_apply]
    rw [if_neg (by omega), if_pos (by omega)]
    rfl
  rw [List.filterMap_congr hfirst, List.filterMap_some, List.filterMap_eq_nil_iff.mpr hrest, List.append_nil]

/-! ## By key -/

variable {κ : Type*} [DecidableEq κ]

/-- A key that one of the sides has more than once. -/
def isDuplicate (a b : List κ) (k : κ) : Bool := 1 < a.count k || 1 < b.count k

def leftFate (a b : List κ) (row : κ × ℕ) : Fate :=
  if isDuplicate a b row.1 then .duplicateLeft row.2
  else
    match b.idxOf? row.1 with
    | none => .removed row.2
    | some r => .paired row.2 r

/-- A right row that has a partner is listed with it. -/
def rightFate (a b : List κ) (row : κ × ℕ) : Option Fate :=
  if isDuplicate a b row.1 then some (.duplicateRight row.2)
  else if row.1 ∈ a then none
  else some (.added row.2)

def matchKeys (a b : List κ) : List Fate :=
  a.zipIdx.map (leftFate a b) ++ b.zipIdx.filterMap (rightFate a b)

theorem isDuplicate_comm (a b : List κ) (k : κ) : isDuplicate b a k = isDuplicate a b k := Bool.or_comm _ _

theorem left_leftFate (a b : List κ) (row : κ × ℕ) : (leftFate a b row).left = some row.2 := by
  unfold leftFate
  split
  · rfl
  · split <;> rfl

theorem of_rightFate {a b : List κ} {row : κ × ℕ} {f : Fate} (h : rightFate a b row = some f) :
    f.left = none ∧ f.right = some row.2 := by
  unfold rightFate at h
  split_ifs at h
  · rw [← Option.some.inj h]
    exact ⟨rfl, rfl⟩
  · rw [← Option.some.inj h]
    exact ⟨rfl, rfl⟩

theorem matchKeys_left (a b : List κ) : (matchKeys a b).filterMap Fate.left = List.range a.length := by
  have hleft : (a.zipIdx.map (leftFate a b)).filterMap Fate.left = a.zipIdx.map Prod.snd := by
    rw [List.filterMap_map, ← List.filterMap_eq_map]
    exact List.filterMap_congr fun row _ ↦ left_leftFate a b row
  have hright : (b.zipIdx.filterMap (rightFate a b)).filterMap Fate.left = [] := by
    refine List.filterMap_eq_nil_iff.mpr fun f hf ↦ ?_
    obtain ⟨row, _, hrow⟩ := List.mem_filterMap.mp hf
    exact (of_rightFate hrow).1
  unfold matchKeys
  rw [List.filterMap_append, hleft, hright, List.append_nil, List.zipIdx_map_snd, List.range_eq_range']

/-- The fate of a row in terms of the keys alone. -/
def Befalls (a b : List κ) : Fate → Prop
  | .duplicateLeft l => ∃ k, a[l]? = some k ∧ isDuplicate a b k = true
  | .duplicateRight r => ∃ k, b[r]? = some k ∧ isDuplicate a b k = true
  | .removed l => ∃ k, a[l]? = some k ∧ isDuplicate a b k = false ∧ k ∉ b
  | .added r => ∃ k, b[r]? = some k ∧ isDuplicate a b k = false ∧ k ∉ a
  | .paired l r => ∃ k, a[l]? = some k ∧ b[r]? = some k ∧ isDuplicate a b k = false

theorem befalls_swap (a b : List κ) (f : Fate) : Befalls b a f.swap ↔ Befalls a b f := by
  cases f with
  | paired l r =>
    simp only [Fate.swap, Befalls, isDuplicate_comm a b]
    exact exists_congr fun k ↦ and_left_comm
  | _ => simp only [Fate.swap, Befalls, isDuplicate_comm a b]

/-- A key that occurs once has one index. -/
theorem idxOf?_eq_some_iff_of_count {b : List κ} {k : κ} (h : b.count k ≤ 1) (r : ℕ) :
    b.idxOf? k = some r ↔ b[r]? = some k := by
  rw [List.idxOf?_eq_some_iff, List.getElem?_eq_some_iff]
  constructor
  · rintro ⟨hr, hk, _⟩
    exact ⟨hr, hk⟩
  · rintro ⟨hr, hk⟩
    refine ⟨hr, hk, fun j hj hjk ↦ ?_⟩
    have htwice : List.Duplicate k b :=
      List.duplicate_iff_exists_distinct_get.mpr ⟨⟨j, by omega⟩, ⟨r, hr⟩, hj, hjk.symm, hk.symm⟩
    exact absurd (List.duplicate_iff_two_le_count.mp htwice) (by omega)

/-- An element occurs once if its index is the only one. -/
theorem count_le_one_iff {a : List κ} {k : κ} {l : ℕ} (hl : a[l]? = some k) :
    a.count k ≤ 1 ↔ ∀ i, a[i]? = some k → i = l := by
  constructor
  · intro hone i hi
    have hat := (idxOf?_eq_some_iff_of_count hone l).mpr hl
    rw [(idxOf?_eq_some_iff_of_count hone i).mpr hi] at hat
    exact Option.some.inj hat
  · intro honly
    by_contra htwice
    rw [not_le] at htwice
    obtain ⟨n, m, hnm, hn, hm⟩ :=
      List.duplicate_iff_exists_distinct_get.mp (List.duplicate_iff_two_le_count.mpr htwice)
    have hfirst := honly n (List.getElem?_eq_some_iff.mpr ⟨n.isLt, hn.symm⟩)
    have hsecond := honly m (List.getElem?_eq_some_iff.mpr ⟨m.isLt, hm.symm⟩)
    exact absurd (hfirst.trans hsecond.symm) (Nat.ne_of_lt hnm)

theorem isDuplicate_eq_false_iff {a b : List κ} {k : κ} :
    isDuplicate a b k = false ↔ a.count k ≤ 1 ∧ b.count k ≤ 1 := by
  unfold isDuplicate
  simp only [Bool.or_eq_false_iff, decide_eq_false_iff_not, not_lt]

theorem leftFate_eq_iff (a b : List κ) (k : κ) (l : ℕ) (f : Fate) :
    leftFate a b (k, l) = f ↔
      isDuplicate a b k = true ∧ f = .duplicateLeft l ∨
      isDuplicate a b k = false ∧ k ∉ b ∧ f = .removed l ∨
      isDuplicate a b k = false ∧ ∃ r, b[r]? = some k ∧ f = .paired l r := by
  unfold leftFate
  cases hdup : isDuplicate a b k with
  | true => simp [eq_comm]
  | false =>
    have hone := (isDuplicate_eq_false_iff.mp hdup).2
    cases hat : b.idxOf? k with
    | none =>
      have hnot : k ∉ b := List.idxOf?_eq_none_iff.mp hat
      have hnone : ∀ r, b[r]? ≠ some k := fun r hr ↦ hnot (List.mem_of_getElem? hr)
      simp [hnot, hnone, eq_comm]
    | some r =>
      have hr := (idxOf?_eq_some_iff_of_count hone r).mp hat
      have hmem : k ∈ b := List.mem_of_getElem? hr
      have honly : ∀ s, b[s]? = some k ↔ r = s := by
        intro s
        rw [← idxOf?_eq_some_iff_of_count hone s, hat, Option.some_inj]
      simp [hmem, honly, eq_comm]

theorem mem_matchKeys_iff (a b : List κ) (f : Fate) : f ∈ matchKeys a b ↔ Befalls a b f := by
  have hleft : f ∈ a.zipIdx.map (leftFate a b) ↔ ∃ k l, a[l]? = some k ∧ leftFate a b (k, l) = f := by
    simp only [List.mem_map, Prod.exists, List.mem_zipIdx_iff_getElem?]
  have hright : f ∈ b.zipIdx.filterMap (rightFate a b) ↔ ∃ k r, b[r]? = some k ∧ rightFate a b (k, r) = some f := by
    simp only [List.mem_filterMap, Prod.exists, List.mem_zipIdx_iff_getElem?]
  unfold matchKeys
  rw [List.mem_append, hleft, hright]
  simp only [leftFate_eq_iff]
  unfold rightFate
  cases f with
  | duplicateLeft l => grind [Befalls]
  | duplicateRight r => grind [Befalls]
  | removed l => grind [Befalls]
  | added r => grind [Befalls]
  | paired l r => grind [Befalls]

theorem nodup_matchKeys (a b : List κ) : (matchKeys a b).Nodup := by
  refine List.Nodup.append ?_ ?_ ?_
  · refine List.Nodup.of_map Fate.left ?_
    have hindex : Fate.left ∘ leftFate a b = some ∘ Prod.snd := funext (left_leftFate a b)
    rw [List.map_map, hindex, ← List.map_map, List.zipIdx_map_snd]
    exact List.Nodup.map (Option.some_injective ℕ) List.nodup_range'
  · have hindex : (b.zipIdx.map Prod.snd).Nodup := by
      rw [List.zipIdx_map_snd]
      exact List.nodup_range'
    refine List.pairwise_filterMap.mpr ((List.pairwise_map.mp hindex).imp fun hne f hf g hg hfg ↦ hne ?_)
    have hfr := (of_rightFate hf).2
    rw [hfg, (of_rightFate hg).2] at hfr
    exact (Option.some.inj hfr).symm
  · intro f hf hg
    obtain ⟨row, _, rfl⟩ := List.mem_map.mp hf
    obtain ⟨row', _, hrow'⟩ := List.mem_filterMap.mp hg
    have hnone := (of_rightFate hrow').1
    rw [left_leftFate] at hnone
    cases hnone

theorem matchKeys_swap (a b : List κ) : ((matchKeys b a).map Fate.swap).Perm (matchKeys a b) := by
  refine (List.perm_ext_iff_of_nodup ((nodup_matchKeys b a).map Fate.swap_injective) (nodup_matchKeys a b)).mpr fun f ↦ ?_
  rw [mem_matchKeys_iff, List.mem_map]
  constructor
  · rintro ⟨g, hg, rfl⟩
    rw [← befalls_swap, Fate.swap_swap]
    exact (mem_matchKeys_iff b a g).mp hg
  · intro hf
    exact ⟨f.swap, (mem_matchKeys_iff b a f.swap).mpr ((befalls_swap a b f).mpr hf), f.swap_swap⟩

end Squaero.Lib
