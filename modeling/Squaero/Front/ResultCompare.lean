import Mathlib.Data.Finset.Dedup
import Squaero.Front.CanonicalNumber
import Squaero.Front.EditSession
import Squaero.Lib.KeyedMatch

/-!
# Two results compared

`compareResults` of `frontend/src/utils/resultCompare.ts` pairs the rows of two results by position or by key columns
and says which were added, removed or changed. Each row is accounted for once. A row is read into an object by the
names of its columns, which keeps of a column named `__proto__` no more than whether it is null.
-/

namespace Squaero.Front.Compare

open Squaero.Lib

structure ResultSet where
  columns : List ResultColumn
  rows : List (List Cell)
  truncated : Bool

inductive CompareBy
  | position
  | key (columns : List Text)

inductive DiffStatus
  | added
  | removed
  | changed
  | duplicate
  deriving DecidableEq

structure DiffRow where
  status : DiffStatus
  left : Option ℕ
  right : Option ℕ
  changed : List Text
  deriving DecidableEq

structure Sides (α : Type) where
  left : α
  right : α

structure ResultComparison where
  columns : List Text
  onlyLeft : List Text
  onlyRight : List Text
  missingKey : List Text
  rows : List DiffRow
  same : ℕ
  duplicateKeys : ℕ
  loaded : Sides ℕ
  truncated : Sides Bool

/-! ## Values as compared -/

inductive CellKind
  | number
  | bool
  | blob
  | temporal
  | text
  deriving DecidableEq

def classifyType (type : Text) : CellKind :=
  let t := jsLower type
  if t = "int".toList ∨ t = "float".toList then .number
  else if t = "bool".toList then .bool
  else if t = "blob".toList then .blob
  else if t = "date".toList ∨ t = "time".toList ∨ t = "timestamp".toList then .temporal
  else .text

def trueWords : List Text := ["1".toList, "true".toList, "t".toList, "yes".toList, "y".toList]

def falseWords : List Text := ["0".toList, "false".toList, "f".toList, "no".toList, "n".toList, []]

/-- The raw byte of a `bit(1)`. -/
def controlByte : Text → Option ℕ
  | [c] => if c.toNat < 32 then some c.toNat else none
  | _ => none

def boolTo01 (value : Text) : Text :=
  let s := jsLower (jsTrim value)
  if s ∈ trueWords then ['1']
  else if s ∈ falseWords then ['0']
  else
    match controlByte value with
    | some code => if code = 0 then ['0'] else ['1']
    | none =>
      match numberOf value with
      | .nan => value
      | .infinite _ => ['1']
      | .finite _ m => if m.value ≠ 0 then ['1'] else ['0']

def normalize (v : Cell) (kind : CellKind) : Cell :=
  v.map fun text ↦
    match kind with
    | .number => canonicalNumber text
    | .bool => boolTo01 text
    | _ => text

/-- `indexOf(rs).get(name)` -/
def indexOf (rs : ResultSet) (name : Text) : Option ℕ := (rs.columns.map (·.name)).idxOf? name

/-- `[...indexOf(rs).keys()]` -/
def names (rs : ResultSet) : List Text := (rs.columns.map (·.name)).eraseDups

def typeOf (rs : ResultSet) (c : Text) : Text :=
  ((indexOf rs c).bind fun i ↦ rs.columns[i]?).elim [] (·.type)

def cellAt (rs : ResultSet) (r : ℕ) (c : Text) : Cell :=
  (rs.rows[r]?.bind fun row ↦ (indexOf rs c).bind fun i ↦ row[i]?).join

/-! ## Rows as objects -/

def protoName : Text := "__proto__".toList

/-- What an object returns for a property that was assigned a cell: `__proto__` names its prototype. -/
inductive Slot
  | cell (v : Cell)
  | undefined
  | prototype
  deriving DecidableEq

/-- A text is no prototype and leaves `Object.prototype`; `null` takes it away, and the accessor with it. -/
def readBack (c : Text) (v : Cell) : Slot :=
  if c = protoName then
    match v with
    | none => .undefined
    | some _ => .prototype
  else .cell v

/-- A property as `join` spells it, `null` apart. -/
def Slot.joined : Slot → Cell
  | cell v => v
  | undefined => some []
  | prototype => some "[object Object]".toList

def keySeparator : Text := ['\x00']

def nullKey : Text := '\x00' :: "NULL".toList

def keyOf (tuple : List Cell) : Text := keySeparator.intercalate (tuple.map (·.getD nullKey))

/-! ## The comparison -/

variable (left right : ResultSet)

def columns : List Text := (names left).filter (· ∈ names right)

def kindOf (c : Text) : CellKind :=
  if classifyType (typeOf left c) = classifyType (typeOf right c) then classifyType (typeOf left c) else .text

def leftValue (r : ℕ) (c : Text) : Cell := normalize (cellAt left r c) (kindOf left right c)

def rightValue (r : ℕ) (c : Text) : Cell := normalize (cellAt right r c) (kindOf left right c)

/-- The columns that `pair` finds to differ. -/
def changedColumns (l r : ℕ) : List Text :=
  (columns left right).filter fun c ↦ readBack c (leftValue left right l c) ≠ readBack c (rightValue left right r c)

def keyTuple (value : ℕ → Text → Cell) (keyColumns : List Text) (r : ℕ) : List Cell :=
  keyColumns.map fun c ↦ (readBack c (value r c)).joined

def leftKeys (keyColumns : List Text) : List Text :=
  (List.range left.rows.length).map fun r ↦ keyOf (keyTuple (leftValue left right) keyColumns r)

def rightKeys (keyColumns : List Text) : List Text :=
  (List.range right.rows.length).map fun r ↦ keyOf (keyTuple (rightValue left right) keyColumns r)

def fates : CompareBy → List Fate
  | .position => matchPositions left.rows.length right.rows.length
  | .key keyColumns => matchKeys (leftKeys left right keyColumns) (rightKeys left right keyColumns)

/-- A row for the list, or a pair that `same` counts. -/
def outcome : Fate → DiffRow ⊕ ℕ × ℕ
  | .duplicateLeft l => .inl ⟨.duplicate, some l, none, []⟩
  | .duplicateRight r => .inl ⟨.duplicate, none, some r, []⟩
  | .removed l => .inl ⟨.removed, some l, none, []⟩
  | .added r => .inl ⟨.added, none, some r, []⟩
  | .paired l r =>
    if changedColumns left right l r ≠ [] then .inl ⟨.changed, some l, some r, changedColumns left right l r⟩
    else .inr (l, r)

def listedRows (how : CompareBy) : List DiffRow := ((fates left right how).map (outcome left right)).filterMap Sum.getLeft?

def samePairs (how : CompareBy) : List (ℕ × ℕ) := ((fates left right how).map (outcome left right)).filterMap Sum.getRight?

def duplicateKeys : CompareBy → ℕ
  | .position => 0
  | .key keyColumns =>
    let lk := leftKeys left right keyColumns
    let rk := rightKeys left right keyColumns
    (lk ++ rk).dedup.countP (isDuplicate lk rk)

def missingKey : CompareBy → List Text
  | .position => []
  | .key keyColumns => keyColumns.filter fun c ↦ c ∉ names left ∨ c ∉ names right

def compareResults (how : CompareBy) : ResultComparison where
  columns := columns left right
  onlyLeft := (names left).filter (· ∉ names right)
  onlyRight := (names right).filter (· ∉ names left)
  missingKey := missingKey left right how
  rows := if missingKey left right how = [] then listedRows left right how else []
  same := if missingKey left right how = [] then (samePairs left right how).length else 0
  duplicateKeys := if missingKey left right how = [] then duplicateKeys left right how else 0
  loaded := ⟨left.rows.length, right.rows.length⟩
  truncated := ⟨left.truncated, right.truncated⟩

/-! ## Fates of the rows -/

theorem outcome_paired (l r : ℕ) : outcome left right (.paired l r) =
    if changedColumns left right l r ≠ [] then .inl ⟨.changed, some l, some r, changedColumns left right l r⟩
    else .inr (l, r) := rfl

theorem kindOf_comm (c : Text) : kindOf right left c = kindOf left right c := by
  unfold kindOf
  by_cases h : classifyType (typeOf left c) = classifyType (typeOf right c)
  · rw [if_pos h, if_pos h.symm, h]
  · rw [if_neg h, if_neg (Ne.symm h)]

theorem leftValue_swap : leftValue right left = rightValue left right := by
  funext r c
  unfold leftValue rightValue
  rw [kindOf_comm]

theorem rightValue_swap : rightValue right left = leftValue left right := by
  funext r c
  unfold leftValue rightValue
  rw [kindOf_comm]

theorem leftKeys_swap (keyColumns : List Text) : leftKeys right left keyColumns = rightKeys left right keyColumns := by
  unfold leftKeys rightKeys
  rw [leftValue_swap]

theorem rightKeys_swap (keyColumns : List Text) : rightKeys right left keyColumns = leftKeys left right keyColumns := by
  unfold leftKeys rightKeys
  rw [rightValue_swap]

theorem fates_left (how : CompareBy) : (fates left right how).filterMap Fate.left = List.range left.rows.length := by
  cases how with
  | position => exact matchPositions_left _ _
  | key keyColumns =>
    have hlength : (leftKeys left right keyColumns).length = left.rows.length := by simp [leftKeys]
    unfold fates
    rw [matchKeys_left, hlength]

theorem fates_swap (how : CompareBy) : ((fates right left how).map Fate.swap).Perm (fates left right how) := by
  cases how with
  | position => exact List.Perm.of_eq (matchPositions_swap _ _)
  | key keyColumns =>
    change ((matchKeys (leftKeys right left keyColumns) (rightKeys right left keyColumns)).map Fate.swap).Perm _
    rw [leftKeys_swap left right, rightKeys_swap left right]
    exact matchKeys_swap _ _

theorem fates_right (how : CompareBy) :
    ((fates left right how).filterMap Fate.right).Perm (List.range right.rows.length) := by
  have hswap := (fates_swap left right how).filterMap Fate.right
  have hleft : (fates right left how).filterMap (Fate.right ∘ Fate.swap) = List.range right.rows.length := by
    rw [← fates_left right left how]
    exact List.filterMap_congr fun f _ ↦ f.right_swap
  rw [List.filterMap_map, hleft] at hswap
  exact hswap.symm

/-- Outcomes name the rows that the fates name. -/
theorem accounted {row : DiffRow → Option ℕ} {pair : ℕ × ℕ → ℕ} {fate : Fate → Option ℕ}
    (h : ∀ f, (outcome left right f).elim row (some ∘ pair) = fate f) (fs : List Fate) :
    (((fs.map (outcome left right)).filterMap Sum.getLeft?).filterMap row ++
      ((fs.map (outcome left right)).filterMap Sum.getRight?).map pair).Perm (fs.filterMap fate) := by
  induction fs with
  | nil => exact List.Perm.nil
  | cons f fs ih =>
    have hf := h f
    cases houtcome : outcome left right f with
    | inl d =>
      rw [houtcome] at hf
      simp only [Sum.elim_inl] at hf
      simp only [List.map_cons, houtcome, List.filterMap_cons, Sum.getLeft?_inl, Sum.getRight?_inl, hf]
      cases fate f with
      | none => exact ih
      | some i => exact ih.cons i
    | inr p =>
      rw [houtcome] at hf
      simp only [Sum.elim_inr, Function.comp_apply] at hf
      simp only [List.map_cons, houtcome, List.filterMap_cons, Sum.getLeft?_inr, Sum.getRight?_inr, ← hf]
      exact List.perm_middle.trans (ih.cons (pair p))

theorem rows_left (how : CompareBy) :
    ((listedRows left right how).filterMap (·.left) ++ (samePairs left right how).map Prod.fst).Perm
      (List.range left.rows.length) := by
  rw [← fates_left left right how]
  refine accounted left right (fun f ↦ ?_) (fates left right how)
  cases f with
  | paired l r =>
    rw [outcome_paired]
    split <;> rfl
  | _ => rfl

theorem rows_right (how : CompareBy) :
    ((listedRows left right how).filterMap (·.right) ++ (samePairs left right how).map Prod.snd).Perm
      (List.range right.rows.length) := by
  refine List.Perm.trans ?_ (fates_right left right how)
  refine accounted left right (fun f ↦ ?_) (fates left right how)
  cases f with
  | paired l r =>
    rw [outcome_paired]
    split <;> rfl
  | _ => rfl

/-! ## Sides exchanged -/

def DiffStatus.swap : DiffStatus → DiffStatus
  | added => removed
  | removed => added
  | s => s

def DiffRow.swap (row : DiffRow) : DiffRow := ⟨row.status.swap, row.right, row.left, row.changed⟩

/-- A row with its columns in no order. -/
def DiffRow.view (row : DiffRow) : DiffStatus × Option ℕ × Option ℕ × Finset Text :=
  (row.status, row.left, row.right, row.changed.toFinset)

theorem mem_columns {c : Text} : c ∈ columns left right ↔ c ∈ names left ∧ c ∈ names right := by
  unfold columns
  rw [List.mem_filter, decide_eq_true_iff]

theorem mem_changedColumns {l r : ℕ} {c : Text} :
    c ∈ changedColumns left right l r ↔ c ∈ columns left right ∧
      readBack c (leftValue left right l c) ≠ readBack c (rightValue left right r c) := by
  unfold changedColumns
  rw [List.mem_filter, decide_eq_true_iff]

theorem mem_changedColumns_swap {l r : ℕ} {c : Text} :
    c ∈ changedColumns right left r l ↔ c ∈ changedColumns left right l r := by
  rw [mem_changedColumns, mem_changedColumns, mem_columns, mem_columns, leftValue_swap left right,
    rightValue_swap left right, ne_comm, and_comm (a := c ∈ names right)]

theorem outcome_swap (f : Fate) :
    (outcome right left f.swap).map (DiffRow.view ∘ DiffRow.swap) Prod.swap = (outcome left right f).map DiffRow.view id := by
  cases f with
  | paired l r =>
    have hset : (changedColumns right left r l).toFinset = (changedColumns left right l r).toFinset := by
      ext c
      rw [List.mem_toFinset, List.mem_toFinset, mem_changedColumns_swap]
    have hnil : changedColumns right left r l = [] ↔ changedColumns left right l r = [] := by
      rw [← List.toFinset_eq_empty_iff, ← List.toFinset_eq_empty_iff, hset]
    change Sum.map _ _ (outcome right left (.paired r l)) = _
    rw [outcome_paired, outcome_paired]
    by_cases hempty : changedColumns left right l r = []
    · rw [if_neg (not_not.mpr hempty), if_neg (not_not.mpr (hnil.mpr hempty))]
      rfl
    · rw [if_pos hempty, if_pos (mt hnil.mp hempty)]
      simp only [Sum.map_inl, Function.comp_apply, DiffRow.view, DiffRow.swap, DiffStatus.swap, hset]
  | _ => rfl

theorem outcomes_swap (how : CompareBy) :
    (((fates right left how).map (outcome right left)).map (Sum.map (DiffRow.view ∘ DiffRow.swap) Prod.swap)).Perm
      (((fates left right how).map (outcome left right)).map (Sum.map DiffRow.view id)) := by
  have hswap := (fates_swap left right how).map (Sum.map DiffRow.view id ∘ outcome left right)
  rw [List.map_map, List.map_map]
  rw [List.map_map] at hswap
  refine List.Perm.trans (List.Perm.of_eq (List.map_congr_left fun f _ ↦ ?_)) hswap
  have hf := outcome_swap left right f.swap
  rw [Fate.swap_swap] at hf
  exact hf

theorem listedRows_swap (how : CompareBy) :
    ((listedRows right left how).map (DiffRow.view ∘ DiffRow.swap)).Perm ((listedRows left right how).map DiffRow.view) := by
  have hswap := (outcomes_swap left right how).filterMap Sum.getLeft?
  have hview (h : DiffRow → DiffStatus × Option ℕ × Option ℕ × Finset Text) (g : ℕ × ℕ → ℕ × ℕ)
      (os : List (DiffRow ⊕ ℕ × ℕ)) :
      (os.map (Sum.map h g)).filterMap Sum.getLeft? = (os.filterMap Sum.getLeft?).map h := by
    rw [List.filterMap_map, List.map_filterMap]
    simp only [Function.comp_def, Sum.getLeft?_map]
  rw [hview, hview] at hswap
  exact hswap

theorem length_samePairs_swap (how : CompareBy) : (samePairs right left how).length = (samePairs left right how).length := by
  have hswap := ((outcomes_swap left right how).filterMap Sum.getRight?).length_eq
  have hlength (g : ℕ × ℕ → ℕ × ℕ) (h : DiffRow → DiffStatus × Option ℕ × Option ℕ × Finset Text)
      (os : List (DiffRow ⊕ ℕ × ℕ)) :
      ((os.map (Sum.map h g)).filterMap Sum.getRight?).length = (os.filterMap Sum.getRight?).length := by
    rw [List.filterMap_map]
    simp only [Function.comp_def, Sum.getRight?_map]
    rw [← List.map_filterMap, List.length_map]
  rw [hlength, hlength] at hswap
  exact hswap

theorem duplicateKeys_swap (how : CompareBy) : duplicateKeys right left how = duplicateKeys left right how := by
  cases how with
  | position => rfl
  | key keyColumns =>
    unfold duplicateKeys
    dsimp only
    rw [leftKeys_swap left right, rightKeys_swap left right]
    have hperm : (rightKeys left right keyColumns ++ leftKeys left right keyColumns).dedup.Perm
        (leftKeys left right keyColumns ++ rightKeys left right keyColumns).dedup := List.perm_append_comm.dedup
    rw [hperm.countP_eq, funext (isDuplicate_comm (leftKeys left right keyColumns) (rightKeys left right keyColumns))]

theorem missingKey_swap (how : CompareBy) : missingKey right left how = missingKey left right how := by
  cases how with
  | position => rfl
  | key keyColumns =>
    unfold missingKey
    exact List.filter_congr fun c _ ↦ decide_eq_decide.mpr or_comm

/-! ## What a comparison promises -/

/-- A key that occurs once on each side, with its normalized values the same column by column. -/
def KeysMatch : CompareBy → ℕ → ℕ → Prop
  | .position, _, _ => True
  | .key keyColumns, l, r =>
    (∀ c ∈ keyColumns, leftValue left right l c = rightValue left right r c) ∧
    (∀ i < left.rows.length, (∀ c ∈ keyColumns, leftValue left right i c = leftValue left right l c) → i = l) ∧
    (∀ i < right.rows.length, (∀ c ∈ keyColumns, rightValue left right i c = rightValue left right r c) → i = r)

structure Partitions (how : CompareBy) : Prop where
  leftOnce : ((compareResults left right how).rows.filterMap (·.left) ++ (samePairs left right how).map Prod.fst).Perm
    (List.range left.rows.length)
  rightOnce : ((compareResults left right how).rows.filterMap (·.right) ++ (samePairs left right how).map Prod.snd).Perm
    (List.range right.rows.length)
  counted : (compareResults left right how).same = (samePairs left right how).length
  changed : ∀ row ∈ (compareResults left right how).rows, ∀ l r, row.left = some l → row.right = some r →
    row.status = .changed ∧ KeysMatch left right how l r ∧
    ∀ c, c ∈ row.changed ↔ c ∈ columns left right ∧ leftValue left right l c ≠ rightValue left right r c
  same : ∀ p ∈ samePairs left right how, KeysMatch left right how p.1 p.2 ∧
    ∀ c ∈ columns left right, leftValue left right p.1 c = rightValue left right p.2 c
  swapRows : ((compareResults right left how).rows.map (DiffRow.view ∘ DiffRow.swap)).Perm
    ((compareResults left right how).rows.map DiffRow.view)
  swapSame : (compareResults right left how).same = (compareResults left right how).same
  swapDuplicateKeys : (compareResults right left how).duplicateKeys = (compareResults left right how).duplicateKeys

/-- The texts of keys are the same for the same keys only. -/
def KeysApart : CompareBy → Prop
  | .position => True
  | .key keyColumns => Set.InjOn keyOf
    ({t | ∃ l < left.rows.length, t = keyTuple (leftValue left right) keyColumns l} ∪
      {t | ∃ r < right.rows.length, t = keyTuple (rightValue left right) keyColumns r})

/-- Rows at one position, or with one key, as it is read, that is the only one of its kind on either side. -/
def Meets : CompareBy → ℕ → ℕ → Prop
  | .position, l, r => l < left.rows.length ∧ r < right.rows.length ∧ l = r
  | .key keyColumns, l, r =>
    l < left.rows.length ∧ r < right.rows.length ∧
    keyTuple (leftValue left right) keyColumns l = keyTuple (rightValue left right) keyColumns r ∧
    (∀ i < left.rows.length,
      keyTuple (leftValue left right) keyColumns i = keyTuple (leftValue left right) keyColumns l → i = l) ∧
    (∀ i < right.rows.length,
      keyTuple (rightValue left right) keyColumns i = keyTuple (rightValue left right) keyColumns r → i = r)

/-- Rows that meet do not differ in a compared column `__proto__`, unless one of them has a null there. -/
def ProtoKept (how : CompareBy) : Prop :=
  protoName ∈ columns left right → ∀ l r, Meets left right how l r → ∀ v w,
    leftValue left right l protoName = some v → rightValue left right r protoName = some w → v = w

/-! ## Rows that meet -/

theorem getElem?_leftKeys (keyColumns : List Text) (l : ℕ) (k : Text) :
    (leftKeys left right keyColumns)[l]? = some k ↔
      l < left.rows.length ∧ keyOf (keyTuple (leftValue left right) keyColumns l) = k := by
  unfold leftKeys
  simp [List.getElem?_eq_some_iff]

theorem getElem?_rightKeys (keyColumns : List Text) (r : ℕ) (k : Text) :
    (rightKeys left right keyColumns)[r]? = some k ↔
      r < right.rows.length ∧ keyOf (keyTuple (rightValue left right) keyColumns r) = k := by
  unfold rightKeys
  simp [List.getElem?_eq_some_iff]

variable {left right}

theorem paired_mem_fates_iff {how : CompareBy} (hkeys : KeysApart left right how) (l r : ℕ) :
    Fate.paired l r ∈ fates left right how ↔ Meets left right how l r := by
  cases how with
  | position =>
    unfold fates matchPositions Meets
    simp only [List.mem_map, List.mem_range]
    grind
  | key keyColumns =>
    have hl {i : ℕ} (hi : i < left.rows.length) : keyTuple (leftValue left right) keyColumns i ∈
        {t | ∃ l < left.rows.length, t = keyTuple (leftValue left right) keyColumns l} ∪
          {t | ∃ r < right.rows.length, t = keyTuple (rightValue left right) keyColumns r} := Or.inl ⟨i, hi, rfl⟩
    have hr {i : ℕ} (hi : i < right.rows.length) : keyTuple (rightValue left right) keyColumns i ∈
        {t | ∃ l < left.rows.length, t = keyTuple (leftValue left right) keyColumns l} ∪
          {t | ∃ r < right.rows.length, t = keyTuple (rightValue left right) keyColumns r} := Or.inr ⟨i, hi, rfl⟩
    change _ ∈ matchKeys (leftKeys left right keyColumns) (rightKeys left right keyColumns) ↔ _
    rw [mem_matchKeys_iff]
    unfold Befalls Meets
    constructor
    · rintro ⟨k, hlk, hrk, hdup⟩
      obtain ⟨honeLeft, honeRight⟩ := isDuplicate_eq_false_iff.mp hdup
      rw [count_le_one_iff hlk] at honeLeft
      rw [count_le_one_iff hrk] at honeRight
      obtain ⟨hltl, hkl⟩ := (getElem?_leftKeys left right keyColumns l k).mp hlk
      obtain ⟨hltr, hkr⟩ := (getElem?_rightKeys left right keyColumns r k).mp hrk
      refine ⟨hltl, hltr, hkeys (hl hltl) (hr hltr) (hkl.trans hkr.symm), fun i hi htuple ↦ ?_, fun i hi htuple ↦ ?_⟩
      · exact honeLeft i ((getElem?_leftKeys left right keyColumns i k).mpr ⟨hi, htuple ▸ hkl⟩)
      · exact honeRight i ((getElem?_rightKeys left right keyColumns i k).mpr ⟨hi, htuple ▸ hkr⟩)
    · rintro ⟨hltl, hltr, htuple, honlyLeft, honlyRight⟩
      have hlk := (getElem?_leftKeys left right keyColumns l _).mpr ⟨hltl, rfl⟩
      have hrk := (getElem?_rightKeys left right keyColumns r _).mpr ⟨hltr, congrArg keyOf htuple.symm⟩
      refine ⟨_, hlk, hrk, isDuplicate_eq_false_iff.mpr ⟨?_, ?_⟩⟩
      · refine (count_le_one_iff hlk).mpr fun i hi ↦ ?_
        obtain ⟨hlt, hki⟩ := (getElem?_leftKeys left right keyColumns i _).mp hi
        exact honlyLeft i hlt (hkeys (hl hlt) (hl hltl) hki)
      · refine (count_le_one_iff hrk).mpr fun i hi ↦ ?_
        obtain ⟨hlt, hki⟩ := (getElem?_rightKeys left right keyColumns i _).mp hi
        exact honlyRight i hlt (htuple ▸ hkeys (hr hlt) (hl hltl) hki)

/-! ## The column `__proto__` -/

theorem readBack_of_ne {c : Text} (hc : c ≠ protoName) (v : Cell) : readBack c v = .cell v := if_neg hc

theorem readBack_proto_eq_iff (v w : Cell) : readBack protoName v = readBack protoName w ↔ v.isSome = w.isSome := by
  unfold readBack
  cases v <;> cases w <;> simp

theorem joined_eq_iff (c : Text) (v w : Cell) :
    (readBack c v).joined = (readBack c w).joined ↔ readBack c v = readBack c w := by
  by_cases hc : c = protoName
  · rw [hc, readBack_proto_eq_iff]
    unfold readBack
    cases v <;> cases w <;> simp [Slot.joined]
  · rw [readBack_of_ne hc, readBack_of_ne hc]
    simp [Slot.joined]

theorem keyTuple_eq_iff (value value' : ℕ → Text → Cell) (keyColumns : List Text) (i j : ℕ) :
    keyTuple value keyColumns i = keyTuple value' keyColumns j ↔
      ∀ c ∈ keyColumns, readBack c (value i c) = readBack c (value' j c) := by
  unfold keyTuple
  rw [List.map_inj_left]
  exact forall₂_congr fun c _ ↦ joined_eq_iff c _ _

section

variable {how : CompareBy} (hkept : ProtoKept left right how) {l r : ℕ} (hmeets : Meets left right how l r)

include hkept hmeets

theorem readBack_eq_iff {c : Text} (hc : c ∈ columns left right) :
    readBack c (leftValue left right l c) = readBack c (rightValue left right r c) ↔
      leftValue left right l c = rightValue left right r c := by
  by_cases hproto : c = protoName
  · subst hproto
    have hsame := hkept hc l r hmeets
    rw [readBack_proto_eq_iff]
    cases hv : leftValue left right l protoName with
    | none => cases hw : rightValue left right r protoName with
      | none => simp
      | some w => simp
    | some v => cases hw : rightValue left right r protoName with
      | none => simp
      | some w => simp [hsame v w hv hw]
  · rw [readBack_of_ne hproto, readBack_of_ne hproto, Slot.cell.injEq]

theorem mem_changedColumns_iff (c : Text) :
    c ∈ changedColumns left right l r ↔
      c ∈ columns left right ∧ leftValue left right l c ≠ rightValue left right r c := by
  rw [mem_changedColumns]
  exact and_congr_right fun hc ↦ not_congr (readBack_eq_iff hkept hmeets hc)

theorem keysMatch_of_meets (hmissing : missingKey left right how = []) : KeysMatch left right how l r := by
  cases how with
  | position => trivial
  | key keyColumns =>
    obtain ⟨-, -, htuple, honlyLeft, honlyRight⟩ := id hmeets
    have hcolumns : ∀ c ∈ keyColumns, c ∈ columns left right := by
      intro c hc
      have hboth := List.filter_eq_nil_iff.mp hmissing c hc
      rw [decide_eq_true_iff, not_or, not_not, not_not] at hboth
      exact (mem_columns left right).mpr hboth
    refine ⟨fun c hc ↦ ?_, fun i hi hvalues ↦ honlyLeft i hi ?_, fun i hi hvalues ↦ honlyRight i hi ?_⟩
    · exact (readBack_eq_iff hkept hmeets (hcolumns c hc)).mp ((keyTuple_eq_iff _ _ _ _ _).mp htuple c hc)
    · exact (keyTuple_eq_iff _ _ _ _ _).mpr fun c hc ↦ congrArg (readBack c) (hvalues c hc)
    · exact (keyTuple_eq_iff _ _ _ _ _).mpr fun c hc ↦ congrArg (readBack c) (hvalues c hc)

end

/-! ## Rows and pairs of the outcome -/

theorem mem_listedRows {how : CompareBy} {row : DiffRow} {l r : ℕ} (hl : row.left = some l) (hr : row.right = some r) :
    row ∈ listedRows left right how ↔ Fate.paired l r ∈ fates left right how ∧
      changedColumns left right l r ≠ [] ∧ row = ⟨.changed, some l, some r, changedColumns left right l r⟩ := by
  unfold listedRows
  simp only [List.filterMap_map, List.mem_filterMap, Function.comp_apply]
  constructor
  · rintro ⟨f, hf, hrow⟩
    have houtcome := Sum.getLeft?_eq_some_iff.mp hrow
    cases f with
    | paired i j =>
      rw [outcome_paired] at houtcome
      split_ifs at houtcome with hne
      obtain rfl := Sum.inl.inj houtcome
      obtain rfl := Option.some.inj hl
      obtain rfl := Option.some.inj hr
      exact ⟨hf, hne, rfl⟩
    | _ =>
      obtain rfl := Sum.inl.inj houtcome
      simp at hl hr
  · rintro ⟨hf, hne, rfl⟩
    exact ⟨_, hf, by rw [outcome_paired, if_pos hne]; rfl⟩

theorem mem_samePairs {how : CompareBy} {l r : ℕ} :
    (l, r) ∈ samePairs left right how ↔ Fate.paired l r ∈ fates left right how ∧ changedColumns left right l r = [] := by
  unfold samePairs
  simp only [List.filterMap_map, List.mem_filterMap, Function.comp_apply]
  constructor
  · rintro ⟨f, hf, hpair⟩
    have houtcome := Sum.getRight?_eq_some_iff.mp hpair
    cases f with
    | paired i j =>
      rw [outcome_paired] at houtcome
      split_ifs at houtcome with hne
      obtain ⟨rfl, rfl⟩ := Prod.mk.inj (Sum.inr.inj houtcome)
      exact ⟨hf, not_not.mp hne⟩
    | _ => cases houtcome
  · rintro ⟨hf, hnil⟩
    exact ⟨_, hf, by rw [outcome_paired, if_neg (not_not.mpr hnil)]; rfl⟩

/-! ## Main result -/

theorem partitions_of_protoKept {how : CompareBy} (hmissing : missingKey left right how = [])
    (hkeys : KeysApart left right how) (hkept : ProtoKept left right how) : Partitions left right how := by
  have hmissing' := (missingKey_swap left right how).trans hmissing
  have hrows : (compareResults left right how).rows = listedRows left right how := if_pos hmissing
  have hrows' : (compareResults right left how).rows = listedRows right left how := if_pos hmissing'
  have hsame : (compareResults left right how).same = (samePairs left right how).length := if_pos hmissing
  have hsame' : (compareResults right left how).same = (samePairs right left how).length := if_pos hmissing'
  have hduplicate : (compareResults left right how).duplicateKeys = duplicateKeys left right how := if_pos hmissing
  have hduplicate' : (compareResults right left how).duplicateKeys = duplicateKeys right left how := if_pos hmissing'
  constructor
  · rw [hrows]
    exact rows_left left right how
  · rw [hrows]
    exact rows_right left right how
  · exact hsame
  · intro row hrow l r hl hr
    rw [hrows, mem_listedRows hl hr] at hrow
    obtain ⟨hpaired, -, rfl⟩ := hrow
    have hmeets := (paired_mem_fates_iff hkeys l r).mp hpaired
    exact ⟨rfl, keysMatch_of_meets hkept hmeets hmissing, mem_changedColumns_iff hkept hmeets⟩
  · rintro ⟨l, r⟩ hpair
    obtain ⟨hpaired, hnil⟩ := mem_samePairs.mp hpair
    have hmeets := (paired_mem_fates_iff hkeys l r).mp hpaired
    refine ⟨keysMatch_of_meets hkept hmeets hmissing, fun c hc ↦ ?_⟩
    by_contra hne
    have hmem := (mem_changedColumns_iff hkept hmeets c).mpr ⟨hc, hne⟩
    rw [hnil] at hmem
    exact List.not_mem_nil hmem
  · rw [hrows, hrows']
    exact listedRows_swap left right how
  · rw [hsame, hsame']
    exact length_samePairs_swap left right how
  · rw [hduplicate, hduplicate']
    exact duplicateKeys_swap left right how

theorem protoKept_of_partitions {how : CompareBy} (hmissing : missingKey left right how = [])
    (hkeys : KeysApart left right how) (h : Partitions left right how) : ProtoKept left right how := by
  intro hcolumn l r hmeets v w hv hw
  have hpaired := (paired_mem_fates_iff hkeys l r).mpr hmeets
  by_contra hne
  have hdiffer : leftValue left right l protoName ≠ rightValue left right r protoName := by
    rw [hv, hw]
    exact mt Option.some.inj hne
  have hunseen : protoName ∉ changedColumns left right l r := by
    rw [mem_changedColumns, hv, hw]
    exact fun hseen ↦ hseen.2 ((readBack_proto_eq_iff _ _).mpr rfl)
  by_cases hnil : changedColumns left right l r = []
  · exact hdiffer ((h.same (l, r) (mem_samePairs.mpr ⟨hpaired, hnil⟩)).2 protoName hcolumn)
  · have hrow : ⟨.changed, some l, some r, changedColumns left right l r⟩ ∈ listedRows left right how :=
      (mem_listedRows rfl rfl).mpr ⟨hpaired, hnil, rfl⟩
    have hrows : (compareResults left right how).rows = listedRows left right how := if_pos hmissing
    obtain ⟨-, -, hchanged⟩ := h.changed _ (hrows ▸ hrow) l r rfl rfl
    exact hunseen ((hchanged protoName).mpr ⟨hcolumn, hdiffer⟩)

theorem compareResults_partitions_iff (left right : ResultSet) (how : CompareBy)
    (hmissing : missingKey left right how = []) (hkeys : KeysApart left right how) :
    Partitions left right how ↔ ProtoKept left right how :=
  ⟨protoKept_of_partitions hmissing hkeys, partitions_of_protoKept hmissing hkeys⟩

/-- One row with an id and a second column. -/
def oneRow (id second value : Text) : ResultSet :=
  ⟨[⟨"id".toList, "int".toList⟩, ⟨second, "text".toList⟩], [[some id, some value]], false⟩

theorem compareResults_partitions_note :
    Partitions (oneRow ['7'] "note".toList ['a']) (oneRow ['7'] "note".toList ['b']) (.key ["id".toList]) ↔
      ProtoKept (oneRow ['7'] "note".toList ['a']) (oneRow ['7'] "note".toList ['b']) (.key ["id".toList]) := by
  refine compareResults_partitions_iff _ _ _ (by decide) ?_
  have hleft : ∀ l < 1, keyTuple (leftValue (oneRow ['7'] "note".toList ['a']) (oneRow ['7'] "note".toList ['b']))
      ["id".toList] l = [some ['7']] := by decide
  have hright : ∀ r < 1, keyTuple (rightValue (oneRow ['7'] "note".toList ['a']) (oneRow ['7'] "note".toList ['b']))
      ["id".toList] r = [some ['7']] := by decide
  rintro s (⟨l, hl, rfl⟩ | ⟨r, hr, rfl⟩) t (⟨l', hl', rfl⟩ | ⟨r', hr', rfl⟩) -
  · rw [hleft l hl, hleft l' hl']
  · rw [hleft l hl, hright r' hr']
  · rw [hright r hr, hleft l' hl']
  · rw [hright r hr, hright r' hr']

/-- Ids that differ are listed, values of `__proto__` that differ beside them are not. -/
theorem compareResults_proto :
    (compareResults (oneRow ['7'] protoName ['a']) (oneRow ['8'] protoName ['b']) .position).rows =
      [⟨.changed, some 0, some 0, ["id".toList]⟩] ∧
    ¬ Partitions (oneRow ['7'] protoName ['a']) (oneRow ['8'] protoName ['b']) .position := by
  refine ⟨by decide, fun h ↦ ?_⟩
  have hapart : KeysApart (oneRow ['7'] protoName ['a']) (oneRow ['8'] protoName ['b']) .position := trivial
  have hmeets : Meets (oneRow ['7'] protoName ['a']) (oneRow ['8'] protoName ['b']) .position 0 0 :=
    ⟨Nat.one_pos, Nat.one_pos, rfl⟩
  have hkept := protoKept_of_partitions rfl hapart h (by decide) 0 0 hmeets ['a'] ['b'] (by decide) (by decide)
  exact absurd hkept (by decide)

end Squaero.Front.Compare
