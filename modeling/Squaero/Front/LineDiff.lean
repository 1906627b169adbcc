import Mathlib.Algebra.Order.Group.Nat
import Mathlib.Data.List.GetD
import Squaero.Front.Clipboard
import Squaero.Lib.CommonSubsequence

/-!
# Line diffs

`frontend/src/utils/lineDiff.ts`: what changed between two texts, line by line, and its layout in two columns.
The counts of the table stay below the four million cells that it may have.
-/

namespace Squaero.Front

open Squaero.Lib

/-! ## Diffs -/

inductive LineKind
  | same
  | add
  | del
  deriving DecidableEq, Repr

structure DiffLine where
  kind : LineKind
  text : Text
  deriving DecidableEq, Repr

def maxDiffCells : ℕ := 4000000

/-- The lines of one of the texts. -/
def linesOf (text : Text) : List Text := if text = [] then [] else splitLines text

/-- How many lines `a` and `b` begin with in common. -/
def commonHead : List Text → List Text → ℕ
  | x :: a, y :: b => if x = y then commonHead a b + 1 else 0
  | _, _ => 0

/-- Row `i` of the table, for the line `x`, over row `i + 1`. -/
def lcsRow (x : Text) : List Text → List ℕ → List ℕ
  | [], _ => [0]
  | y :: bm, below =>
    let right := lcsRow x bm below.tail
    (if x = y then below.tail.headD 0 + 1 else max (below.headD 0) (right.headD 0)) :: right

def lcsTable (bm : List Text) : List Text → List (List ℕ)
  | [] => [List.replicate (bm.length + 1) 0]
  | x :: am =>
    let below := lcsTable bm am
    lcsRow x bm (below.headD []) :: below

def lcsAt (table : List (List ℕ)) (i j : ℕ) : ℕ := (table.getD i []).getD j 0

/-- The walk at line `x` of `am`, from line `j` of `bm` on; `below` is the walk from the next line on. -/
def walkLine (table : List (List ℕ)) (i : ℕ) (x : Text) (below : ℕ → List Text → List DiffLine) :
    ℕ → List Text → List DiffLine
  | j, [] => ⟨.del, x⟩ :: below j []
  | j, y :: bm =>
    if x = y then ⟨.same, x⟩ :: below (j + 1) bm
    else if lcsAt table (i + 1) j ≥ lcsAt table i (j + 1) then ⟨.del, x⟩ :: below j (y :: bm)
    else ⟨.add, y⟩ :: walkLine table i x below (j + 1) bm

/-- The walk over what is left of both middles, from their lines `i` and `j` on. -/
def walk (table : List (List ℕ)) : ℕ → List Text → ℕ → List Text → List DiffLine
  | _, [], _, bm => bm.map fun y ↦ ⟨.add, y⟩
  | i, x :: am, j, bm => walkLine table i x (walk table (i + 1) am) j bm

def diffLines (before after : Text) : Option (List DiffLine) :=
  let a := linesOf before
  let b := linesOf after
  let head := commonHead a b
  let tail := commonHead (a.drop head).reverse (b.drop head).reverse
  let am := (a.take (a.length - tail)).drop head
  let bm := (b.take (b.length - tail)).drop head
  if am.length * bm.length > maxDiffCells then none
  else
    some ((a.take head).map (⟨.same, ·⟩) ++ walk (lcsTable bm am) 0 am 0 bm ++
      (a.drop (a.length - tail)).map (⟨.same, ·⟩))

/-! ## Two columns -/

structure SideCell where
  no : ℕ
  text : Text
  kind : LineKind
  deriving DecidableEq, Repr

structure SideRow where
  left : Option SideCell
  right : Option SideCell
  deriving DecidableEq, Repr

/-- A run of removals beside the run of additions that replaces it. -/
def facing (ln rn : ℕ) : List Text → List Text → List SideRow
  | [], [] => []
  | d :: dels, [] => ⟨some ⟨ln + 1, d, .del⟩, none⟩ :: facing (ln + 1) rn dels []
  | [], a :: adds => ⟨none, some ⟨rn + 1, a, .add⟩⟩ :: facing ln (rn + 1) [] adds
  | d :: dels, a :: adds =>
    ⟨some ⟨ln + 1, d, .del⟩, some ⟨rn + 1, a, .add⟩⟩ :: facing (ln + 1) (rn + 1) dels adds

/-- The rows of the lines that are left, behind `ln` lines on the left and `rn` on the right. -/
def sideRows (ln rn : ℕ) : List DiffLine → List SideRow
  | [] => []
  | ⟨.same, text⟩ :: lines =>
    ⟨some ⟨ln + 1, text, .same⟩, some ⟨rn + 1, text, .same⟩⟩ :: sideRows (ln + 1) (rn + 1) lines
  | ⟨.del, text⟩ :: lines =>
    let dels := text :: (lines.takeWhile (·.kind = .del)).map (·.text)
    let rest := lines.dropWhile (·.kind = .del)
    let adds := (rest.takeWhile (·.kind = .add)).map (·.text)
    facing ln rn dels adds ++ sideRows (ln + dels.length) (rn + adds.length) (rest.dropWhile (·.kind = .add))
  | ⟨.add, text⟩ :: lines =>
    let adds := text :: (lines.takeWhile (·.kind = .add)).map (·.text)
    facing ln rn [] adds ++ sideRows ln (rn + adds.length) (lines.dropWhile (·.kind = .add))
  termination_by lines => lines.length
  decreasing_by
    · simp
    · have hdels := (List.dropWhile_sublist (l := lines) (·.kind = .del)).length_le
      have hadds := (List.dropWhile_sublist (l := lines.dropWhile (·.kind = .del)) (·.kind = .add)).length_le
      simp only [List.length_cons]
      omega
    · have hadds := (List.dropWhile_sublist (l := lines) (·.kind = .add)).length_le
      simp only [List.length_cons]
      omega

def LineDiff.sideBySide (lines : List DiffLine) : List SideRow := sideRows 0 0 lines

/-! ## The table -/

theorem lcsRow_tails (x : Text) (am bm : List Text) :
    lcsRow x bm (bm.tails.map (lcsLength am)) = bm.tails.map (lcsLength (x :: am)) := by
  induction bm with
  | nil => simp [lcsRow]
  | cons y bm ih =>
    have hhead (a b : List Text) : (b.tails.map (lcsLength a)).headD 0 = lcsLength a b := by
      cases b <;> simp
    rw [List.tails_cons, List.map_cons, List.map_cons, lcsRow, List.tail_cons, List.headD_cons, ih, hhead, hhead,
      lcsLength_cons_cons]

theorem lcsTable_tails (am bm : List Text) :
    lcsTable bm am = am.tails.map fun a ↦ bm.tails.map (lcsLength a) := by
  induction am with
  | nil =>
    have hzero : bm.tails.map (lcsLength []) = List.replicate (bm.length + 1) 0 := by
      refine List.eq_replicate_iff.mpr ⟨by simp, fun n hn ↦ ?_⟩
      obtain ⟨b, -, rfl⟩ := List.mem_map.mp hn
      exact lcsLength_nil_left b
    rw [lcsTable, ← hzero]
    rfl
  | cons x am ih =>
    have hhead : (am.tails.map fun a ↦ bm.tails.map (lcsLength a)).headD [] = bm.tails.map (lcsLength am) := by
      cases am <;> simp
    rw [lcsTable, ih, hhead, lcsRow_tails, List.tails_cons, List.map_cons]

theorem getD_map_tails {β : Type*} (f : List Text → β) (lines : List Text) (n : ℕ) (d : β) :
    (lines.tails.map f).getD n d = if n ≤ lines.length then f (lines.drop n) else d := by
  have hlength : (lines.tails.map f).length = lines.length + 1 := by simp
  split_ifs with hn
  · rw [List.getD_eq_getElem _ _ (by omega), List.getElem_map, List.getElem_tails]
  · exact List.getD_eq_default _ _ (by omega)

/-- A cell holds the length for what is left of both middles. -/
theorem lcsAt_lcsTable (am bm : List Text) (i j : ℕ) :
    lcsAt (lcsTable bm am) i j = lcsLength (am.drop i) (bm.drop j) := by
  unfold lcsAt
  rw [lcsTable_tails, getD_map_tails]
  split_ifs with hi
  · rw [getD_map_tails]
    split_ifs with hj
    · rfl
    · rw [List.drop_of_length_le (not_le.mp hj).le, lcsLength_nil_right]
  · rw [List.drop_of_length_le (not_le.mp hi).le, lcsLength_nil_left]
    rfl

/-! ## The walk -/

/-- The lines of the text before, in a diff. -/
def leftLines (out : List DiffLine) : List Text := (out.filter (·.kind ≠ .add)).map (·.text)

def rightLines (out : List DiffLine) : List Text := (out.filter (·.kind ≠ .del)).map (·.text)

def sameLines (out : List DiffLine) : List Text := (out.filter (·.kind = .same)).map (·.text)

section

variable (text : Text) (out more : List DiffLine)

@[simp] theorem leftLines_same : leftLines (⟨.same, text⟩ :: out) = text :: leftLines out := rfl
@[simp] theorem leftLines_del : leftLines (⟨.del, text⟩ :: out) = text :: leftLines out := rfl
@[simp] theorem leftLines_add : leftLines (⟨.add, text⟩ :: out) = leftLines out := rfl
@[simp] theorem rightLines_same : rightLines (⟨.same, text⟩ :: out) = text :: rightLines out := rfl
@[simp] theorem rightLines_del : rightLines (⟨.del, text⟩ :: out) = rightLines out := rfl
@[simp] theorem rightLines_add : rightLines (⟨.add, text⟩ :: out) = text :: rightLines out := rfl
@[simp] theorem sameLines_same : sameLines (⟨.same, text⟩ :: out) = text :: sameLines out := rfl
@[simp] theorem sameLines_del : sameLines (⟨.del, text⟩ :: out) = sameLines out := rfl
@[simp] theorem sameLines_add : sameLines (⟨.add, text⟩ :: out) = sameLines out := rfl

theorem leftLines_append : leftLines (out ++ more) = leftLines out ++ leftLines more := by
  simp [leftLines]

theorem rightLines_append : rightLines (out ++ more) = rightLines out ++ rightLines more := by
  simp [rightLines]

theorem sameLines_append : sameLines (out ++ more) = sameLines out ++ sameLines more := by
  simp [sameLines]

end

theorem lines_map_same (lines : List Text) : leftLines (lines.map (⟨.same, ·⟩)) = lines ∧
    rightLines (lines.map (⟨.same, ·⟩)) = lines ∧ sameLines (lines.map (⟨.same, ·⟩)) = lines := by
  induction lines with
  | nil => exact ⟨rfl, rfl, rfl⟩
  | cons x lines ih => simp [ih]

theorem lines_map_add (lines : List Text) : leftLines (lines.map (⟨.add, ·⟩)) = [] ∧
    rightLines (lines.map (⟨.add, ·⟩)) = lines ∧ sameLines (lines.map (⟨.add, ·⟩)) = [] := by
  induction lines with
  | nil => exact ⟨rfl, rfl, rfl⟩
  | cons x lines ih => simp [ih]

theorem sameLines_sublist (out : List DiffLine) :
    (sameLines out).Sublist (leftLines out) ∧ (sameLines out).Sublist (rightLines out) := by
  induction out with
  | nil => exact ⟨.slnil, .slnil⟩
  | cons line out ih =>
    obtain ⟨kind, text⟩ := line
    cases kind with
    | same => exact ⟨ih.1.cons_cons text, ih.2.cons_cons text⟩
    | add => exact ⟨ih.1, ih.2.cons text⟩
    | del => exact ⟨ih.1.cons text, ih.2⟩

/-- An addition does not come right before a removal. -/
def RemovalFirst (l next : DiffLine) : Prop := ¬ (l.kind = .add ∧ next.kind = .del)

/-- What a walk over the middles `a` and `b` gives. -/
structure Walks (a b : List Text) (out : List DiffLine) : Prop where
  left : leftLines out = a
  right : rightLines out = b
  length : (sameLines out).length = lcsLength a b
  ordered : out.IsChain RemovalFirst

theorem walks_add (bm : List Text) : Walks [] bm (bm.map (⟨.add, ·⟩)) where
  left := (lines_map_add bm).1
  right := (lines_map_add bm).2.1
  length := by rw [(lines_map_add bm).2.2, lcsLength_nil_left, List.length_nil]
  ordered := by
    induction bm with
    | nil => exact .nil
    | cons y bm ih =>
      rw [List.map_cons, List.isChain_cons]
      refine ⟨fun next hnext hboth ↦ ?_, ih⟩
      obtain ⟨z, -, rfl⟩ := List.mem_map.mp (List.mem_of_mem_head? hnext)
      cases hboth.2

/-- Where line `x` is in every longest common subsequence the walk does not remove it first. -/
theorem walks_walkLine {table : List (List ℕ)} {A B am : List Text} (htable : ∀ i j, lcsAt table i j =
    lcsLength (A.drop i) (B.drop j)) {i : ℕ} {x : Text} (hi : A.drop i = x :: am)
    {below : ℕ → List Text → List DiffLine} (hbelow : ∀ j, Walks am (B.drop j) (below j (B.drop j)))
    {j : ℕ} {bm : List Text} (hj : B.drop j = bm) :
    Walks (x :: am) bm (walkLine table i x below j bm) ∧ (lcsLength am bm < lcsLength (x :: am) bm →
      ∀ first ∈ (walkLine table i x below j bm).head?, first.kind ≠ .del) := by
  have hi' : A.drop (i + 1) = am := by rw [← List.drop_drop, hi, List.drop_one, List.tail_cons]
  induction bm generalizing j with
  | nil =>
    have hrest := hbelow j
    rw [hj] at hrest
    rw [walkLine]
    refine ⟨⟨?_, ?_, ?_, ?_⟩, fun hlt ↦ ?_⟩
    · rw [leftLines_del, hrest.left]
    · rw [rightLines_del, hrest.right]
    · rw [sameLines_del, hrest.length, lcsLength_nil_right, lcsLength_nil_right]
    · exact List.isChain_cons.mpr ⟨fun next _ hboth ↦ absurd hboth.1 (by simp), hrest.ordered⟩
    · rw [lcsLength_nil_right, lcsLength_nil_right] at hlt
      exact absurd hlt (lt_irrefl 0)
  | cons y bm ih =>
    have hj' : B.drop (j + 1) = bm := by rw [← List.drop_drop, hj, List.drop_one, List.tail_cons]
    rw [walkLine]
    split_ifs with hsame hdel
    · -- a line of both
      subst hsame
      have hrest := hbelow (j + 1)
      rw [hj'] at hrest
      refine ⟨⟨?_, ?_, ?_, ?_⟩, fun _ first hfirst ↦ ?_⟩
      · rw [leftLines_same, hrest.left]
      · rw [rightLines_same, hrest.right]
      · rw [sameLines_same, List.length_cons, hrest.length, lcsLength_cons_same]
      · exact List.isChain_cons.mpr ⟨fun next _ hboth ↦ absurd hboth.1 (by simp), hrest.ordered⟩
      · rw [← Option.some.inj hfirst]
        simp
    · -- nothing is lost without `x`
      rw [htable, htable, hi, hi', hj, hj'] at hdel
      have hrest := hbelow j
      rw [hj] at hrest
      have hmax : lcsLength (x :: am) (y :: bm) = lcsLength am (y :: bm) := by
        rw [lcsLength_cons_ne hsame, max_eq_left hdel]
      refine ⟨⟨?_, ?_, ?_, ?_⟩, fun hlt ↦ ?_⟩
      · rw [leftLines_del, hrest.left]
      · rw [rightLines_del, hrest.right]
      · rw [sameLines_del, hrest.length, hmax]
      · exact List.isChain_cons.mpr ⟨fun next _ hboth ↦ absurd hboth.1 (by simp), hrest.ordered⟩
      · rw [hmax] at hlt
        exact absurd hlt (lt_irrefl _)
    · -- `x` is in every longest one, and stays so without `y`
      rw [htable, htable, hi, hi', hj, hj', ge_iff_le, not_le] at hdel
      obtain ⟨hrest, hfirst⟩ := ih hj'
      have hkept := hfirst ((lcsLength_le_of_sublist (List.Sublist.refl am) (List.sublist_cons_self y bm)).trans_lt hdel)
      refine ⟨⟨?_, ?_, ?_, ?_⟩, fun _ first hhead ↦ ?_⟩
      · rw [leftLines_add, hrest.left]
      · rw [rightLines_add, hrest.right]
      · rw [sameLines_add, hrest.length, lcsLength_cons_ne hsame, max_eq_right hdel.le]
      · exact List.isChain_cons.mpr ⟨fun next hnext hboth ↦ hkept next hnext hboth.2, hrest.ordered⟩
      · rw [← Option.some.inj hhead]
        simp

theorem walks_walk {table : List (List ℕ)} {A B : List Text} (htable : ∀ i j, lcsAt table i j =
    lcsLength (A.drop i) (B.drop j)) {i : ℕ} {am : List Text} (hi : A.drop i = am) (j : ℕ) :
    Walks am (B.drop j) (walk table i am j (B.drop j)) := by
  induction am generalizing i j with
  | nil => exact walks_add (B.drop j)
  | cons x am ih =>
    have hi' : A.drop (i + 1) = am := by rw [← List.drop_drop, hi, List.drop_one, List.tail_cons]
    exact (walks_walkLine htable hi (fun j ↦ ih hi' j) rfl).1

/-! ## Common head and tail -/

theorem exists_commonHead (a b : List Text) :
    ∃ p a' b', a = p ++ a' ∧ b = p ++ b' ∧ p.length = commonHead a b := by
  induction a generalizing b with
  | nil => exact ⟨[], [], b, rfl, rfl, rfl⟩
  | cons x a ih =>
    cases b with
    | nil => exact ⟨[], x :: a, [], rfl, rfl, rfl⟩
    | cons y b =>
      rw [commonHead]
      split_ifs with hsame
      · obtain ⟨p, a', b', rfl, rfl, hlength⟩ := ih b
        exact ⟨x :: p, a', b', rfl, hsame ▸ rfl, by rw [List.length_cons, hlength]⟩
      · exact ⟨[], x :: a, y :: b, rfl, rfl, rfl⟩

theorem walks_surround {a b : List Text} {out : List DiffLine} (h : Walks a b out) (head tail : List Text) :
    leftLines (head.map (⟨.same, ·⟩) ++ out ++ tail.map (⟨.same, ·⟩)) = head ++ a ++ tail ∧
    rightLines (head.map (⟨.same, ·⟩) ++ out ++ tail.map (⟨.same, ·⟩)) = head ++ b ++ tail ∧
    IsLongest (head ++ a ++ tail) (head ++ b ++ tail)
      (sameLines (head.map (⟨.same, ·⟩) ++ out ++ tail.map (⟨.same, ·⟩))) ∧
    (head.map (DiffLine.mk .same) ++ out ++ tail.map (DiffLine.mk .same)).IsChain RemovalFirst := by
  have hhead := lines_map_same head
  have htail := lines_map_same tail
  have hsub := sameLines_sublist out
  rw [h.left, h.right] at hsub
  have hmiddle := isLongest_of_length hsub.1 hsub.2 h.length
  have hsame (lines : List Text) : (lines.map (DiffLine.mk .same)).IsChain RemovalFirst := by
    induction lines with
    | nil => exact .nil
    | cons x lines ih => exact List.isChain_cons.mpr ⟨fun next _ hboth ↦ absurd hboth.1 (by simp), ih⟩
  have hfront : (head.map (DiffLine.mk .same) ++ out).IsChain RemovalFirst := by
    refine List.isChain_append.mpr ⟨hsame head, h.ordered, fun l hl next _ hboth ↦ ?_⟩
    obtain ⟨x, -, rfl⟩ := List.mem_map.mp (List.mem_of_mem_getLast? hl)
    cases hboth.1
  refine ⟨?_, ?_, ?_, ?_⟩
  · rw [leftLines_append, leftLines_append, hhead.1, htail.1, h.left]
  · rw [rightLines_append, rightLines_append, hhead.2.1, htail.2.1, h.right]
  · rw [sameLines_append, sameLines_append, hhead.2.2, htail.2.2]
    exact (hmiddle.append_left head).append_right tail
  · refine List.isChain_append.mpr ⟨hfront, hsame tail, fun l _ next hnext hboth ↦ ?_⟩
    obtain ⟨x, -, rfl⟩ := List.mem_map.mp (List.mem_of_mem_head? hnext)
    cases hboth.2

/-- In a run of changed lines all removals come before all additions. -/
def RemovalsFirst (out : List DiffLine) : Prop := ∀ before run after, out = before ++ (run ++ after) →
  (∀ l ∈ run, l.kind ≠ .same) → ∃ dels adds, run = dels ++ adds ∧ (∀ l ∈ dels, l.kind = .del) ∧
    ∀ l ∈ adds, l.kind = .add

theorem removalsFirst_of_isChain {out : List DiffLine} (h : out.IsChain RemovalFirst) : RemovalsFirst out := by
  intro before run after hout hchanged
  have hrun : run.IsChain RemovalFirst := by
    rw [hout] at h
    exact (List.isChain_append.mp (List.isChain_append.mp h).2.1).1
  clear hout h
  induction run with
  | nil => exact ⟨[], [], rfl, nofun, nofun⟩
  | cons l run ih =>
    obtain ⟨hl, hmore⟩ := List.forall_mem_cons.mp hchanged
    obtain ⟨hfirst, hrun⟩ := List.isChain_cons.mp hrun
    obtain ⟨dels, adds, rfl, hdels, hadds⟩ := ih hmore hrun
    cases hkind : l.kind with
    | same => exact absurd hkind hl
    | del => exact ⟨l :: dels, adds, rfl, List.forall_mem_cons.mpr ⟨hkind, hdels⟩, hadds⟩
    | add =>
      cases dels with
      | nil => exact ⟨[], l :: adds, rfl, nofun, List.forall_mem_cons.mpr ⟨hkind, hadds⟩⟩
      | cons d dels => exact absurd ⟨hkind, hdels d (.head _)⟩ (hfirst d rfl)

/-! ## Columns -/

/-- Lines as the cells of one column, behind `n` others. -/
def cells (n : ℕ) : List DiffLine → List SideCell
  | [] => []
  | l :: lines => ⟨n + 1, l.text, l.kind⟩ :: cells (n + 1) lines

theorem cells_append (n : ℕ) (lines more : List DiffLine) :
    cells n (lines ++ more) = cells n lines ++ cells (n + lines.length) more := by
  induction lines generalizing n with
  | nil => rfl
  | cons l lines ih => rw [List.cons_append, cells, cells, ih, List.length_cons, Nat.add_right_comm, Nat.add_assoc,
      List.cons_append]

theorem facing_cells (ln rn : ℕ) (dels adds : List Text) :
    (facing ln rn dels adds).filterMap (·.left) = cells ln (dels.map (⟨.del, ·⟩)) ∧
    (facing ln rn dels adds).filterMap (·.right) = cells rn (adds.map (⟨.add, ·⟩)) := by
  induction ln, rn, dels, adds using facing.induct with
  | case1 ln rn => simp [facing, cells]
  | case2 ln rn d dels ih =>
    rw [facing]
    exact ⟨congrArg _ ih.1, ih.2⟩
  | case3 ln rn a adds ih =>
    rw [facing]
    exact ⟨ih.1, congrArg _ ih.2⟩
  | case4 ln rn d dels a adds ih =>
    rw [facing]
    exact ⟨congrArg _ ih.1, congrArg _ ih.2⟩

theorem takeWhile_kind (kind : LineKind) (lines : List DiffLine) :
    lines.takeWhile (·.kind = kind) = ((lines.takeWhile (·.kind = kind)).map (·.text)).map (⟨kind, ·⟩) := by
  have hkind : ∀ l ∈ lines.takeWhile (·.kind = kind), l.kind = kind :=
    fun l hl ↦ by simpa using List.mem_takeWhile_imp hl
  generalize lines.takeWhile (·.kind = kind) = taken at hkind ⊢
  induction taken with
  | nil => rfl
  | cons l taken ih =>
    obtain ⟨hl, htaken⟩ := List.forall_mem_cons.mp hkind
    rw [List.map_cons, List.map_cons, ← ih htaken, ← hl]

theorem filter_map_kind (p : LineKind → Bool) (kind : LineKind) (texts : List Text) :
    (texts.map (DiffLine.mk kind)).filter (fun l ↦ p l.kind) =
      if p kind then texts.map (DiffLine.mk kind) else [] := by
  cases hp : p kind <;> simp [List.filter_map, Function.comp_def, hp]

/-- Each column numbers its own lines from one on. -/
theorem sideRows_cells (ln rn : ℕ) (lines : List DiffLine) :
    (sideRows ln rn lines).filterMap (·.left) = cells ln (lines.filter (·.kind ≠ .add)) ∧
    (sideRows ln rn lines).filterMap (·.right) = cells rn (lines.filter (·.kind ≠ .del)) := by
  have hkinds (kind : LineKind) (p : LineKind → Bool) := filter_map_kind p kind
  induction ln, rn, lines using sideRows.induct with
  | case1 ln rn => simp [sideRows, cells]
  | case2 ln rn text lines ih =>
    rw [sideRows]
    exact ⟨congrArg _ ih.1, congrArg _ ih.2⟩
  | case3 ln rn text lines dels rest adds ih =>
    have hlines : DiffLine.mk .del text :: lines =
        dels.map (DiffLine.mk .del) ++ (adds.map (DiffLine.mk .add) ++ rest.dropWhile (·.kind = .add)) := by
      rw [← takeWhile_kind .add rest, List.takeWhile_append_dropWhile, List.map_cons, ← takeWhile_kind .del lines,
        List.cons_append, List.takeWhile_append_dropWhile]
    obtain ⟨hleft, hright⟩ := facing_cells ln rn dels adds
    rw [sideRows, hlines]
    constructor
    · rw [List.filterMap_append, List.filter_append, List.filter_append, hkinds .del (fun k ↦ decide (k ≠ .add)),
        hkinds .add (fun k ↦ decide (k ≠ .add)), hleft, ih.1]
      simp [cells_append]
    · rw [List.filterMap_append, List.filter_append, List.filter_append, hkinds .del (fun k ↦ decide (k ≠ .del)),
        hkinds .add (fun k ↦ decide (k ≠ .del)), hright, ih.2]
      simp [cells_append]
  | case4 ln rn text lines adds ih =>
    have hlines : DiffLine.mk .add text :: lines =
        adds.map (DiffLine.mk .add) ++ lines.dropWhile (·.kind = .add) := by
      rw [List.map_cons, ← takeWhile_kind .add lines, List.cons_append, List.takeWhile_append_dropWhile]
    obtain ⟨hleft, hright⟩ := facing_cells ln rn [] adds
    rw [sideRows, hlines]
    constructor
    · rw [List.filterMap_append, List.filter_append, hkinds .add (fun k ↦ decide (k ≠ .add)), hleft, ih.1]
      simp [cells]
    · rw [List.filterMap_append, List.filter_append, hkinds .add (fun k ↦ decide (k ≠ .del)), hright, ih.2]
      simp [cells_append]

/-- The cells of a column are the lines of its text, each once, numbered from one. -/
def NumbersLines (column : List SideCell) (lines : List Text) : Prop :=
  column.map (·.text) = lines ∧ column.map (·.no) = List.range' 1 lines.length

theorem numbersLines_cells (lines : List DiffLine) : NumbersLines (cells 0 lines) (lines.map (·.text)) := by
  have hnumbers (n : ℕ) : (cells n lines).map (·.text) = lines.map (·.text) ∧
      (cells n lines).map (·.no) = List.range' (n + 1) lines.length := by
    induction lines generalizing n with
    | nil => exact ⟨rfl, rfl⟩
    | cons l lines ih =>
      obtain ⟨htext, hno⟩ := ih (n + 1)
      rw [cells, List.map_cons, List.map_cons, List.map_cons, htext, hno]
      exact ⟨rfl, rfl⟩
  refine ⟨(hnumbers 0).1, ?_⟩
  rw [List.length_map]
  exact (hnumbers 0).2

/-! ## The diff -/

/-- A diff turns the lines of one text into those of the other with as few changes as can be, shows removals
before additions, and its layout numbers the lines of both. -/
theorem diffLines_minimal {before after : Text} {out : List DiffLine} (h : diffLines before after = some out) :
    leftLines out = linesOf before ∧ rightLines out = linesOf after ∧
    IsLongest (linesOf before) (linesOf after) (sameLines out) ∧ RemovalsFirst out ∧
    NumbersLines ((LineDiff.sideBySide out).filterMap (·.left)) (linesOf before) ∧
    NumbersLines ((LineDiff.sideBySide out).filterMap (·.right)) (linesOf after) := by
  have hdiff : leftLines out = linesOf before ∧ rightLines out = linesOf after ∧
      IsLongest (linesOf before) (linesOf after) (sameLines out) ∧ out.IsChain RemovalFirst := by
    unfold diffLines at h
    generalize linesOf before = a at h ⊢
    generalize linesOf after = b at h ⊢
    obtain ⟨head, a', b', rfl, rfl, hhead⟩ := exists_commonHead a b
    simp only [← hhead, List.drop_left', List.take_left'] at h
    obtain ⟨tail, am, bm, ha, hb, htail⟩ := exists_commonHead a'.reverse b'.reverse
    replace ha : a' = am.reverse ++ tail.reverse := by rw [← List.reverse_append, ← ha, List.reverse_reverse]
    replace hb : b' = bm.reverse ++ tail.reverse := by rw [← List.reverse_append, ← hb, List.reverse_reverse]
    have hmiddle (c : List Text) : ((head ++ (c ++ tail.reverse)).take
        ((head ++ (c ++ tail.reverse)).length - tail.length)).drop head.length = c ∧
        (head ++ (c ++ tail.reverse)).drop ((head ++ (c ++ tail.reverse)).length - tail.length) = tail.reverse := by
      have hlength : (head ++ (c ++ tail.reverse)).length - tail.length = (head ++ c).length := by
        simp only [List.length_append, List.length_reverse]
        omega
      rw [hlength, ← List.append_assoc, List.take_left, List.drop_left, List.drop_left]
      exact ⟨rfl, rfl⟩
    simp only [← htail] at h
    subst ha hb
    rw [(hmiddle am.reverse).1, (hmiddle am.reverse).2, (hmiddle bm.reverse).1] at h
    split_ifs at h
    have hwhole : am.reverse.drop 0 = am.reverse := rfl
    have hwalk := walks_walk (lcsAt_lcsTable am.reverse bm.reverse) hwhole 0
    have hout := walks_surround hwalk head tail.reverse
    rw [List.drop_zero, List.append_assoc head, List.append_assoc head] at hout
    rw [← Option.some.inj h]
    exact hout
  obtain ⟨hleft, hright, hlongest, hordered⟩ := hdiff
  obtain ⟨hleftCells, hrightCells⟩ := sideRows_cells 0 0 out
  refine ⟨hleft, hright, hlongest, removalsFirst_of_isChain hordered, ?_, ?_⟩
  · rw [← hleft, LineDiff.sideBySide, hleftCells]
    exact numbersLines_cells _
  · rw [← hright, LineDiff.sideBySide, hrightCells]
    exact numbersLines_cells _

theorem diffLines_minimal_edit :
    IsLongest [['a'], ['b'], ['c'], ['d']] [['a'], ['c'], ['e'], ['d']] [['a'], ['c'], ['d']] := by
  have hdiff : diffLines "a\nb\nc\nd".toList "a\r\nc\r\ne\r\nd".toList =
      some [⟨.same, ['a']⟩, ⟨.del, ['b']⟩, ⟨.same, ['c']⟩, ⟨.add, ['e']⟩, ⟨.same, ['d']⟩] := by
    decide
  exact (diffLines_minimal hdiff).2.2.1

end Squaero.Front
