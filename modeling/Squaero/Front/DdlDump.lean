import Mathlib.Data.List.Sort
import Mathlib.Data.Prod.Lex
import Mathlib.Data.Finset.Card
import Squaero.Lib.JsonPrint
import Squaero.Lib.TextOrder

/-!
# A schema dumped to files

`utils/ddlDump.ts`: one `.sql` file per object, in the folder of its kind. A name is made safe for every file
system and told apart from the paths already taken, case ignored, by a number. `normalize` and `toLowerCase`
are parameters. The objects are sorted before the numbers are given, so the files do not depend on the order in
which the objects arrive.
-/

namespace Squaero.Front.DdlDump

open Squaero.Lib

inductive DdlKind
  | table
  | view
  | procedure
  | function
  | trigger
  | event
  deriving DecidableEq, Repr

/-- `ORDER`. -/
def order : List DdlKind := [.table, .view, .procedure, .function, .trigger, .event]

/-- `FOLDERS`. -/
def folder : DdlKind → Text
  | .table => "tables".toList
  | .view => "views".toList
  | .procedure => "procedures".toList
  | .function => "functions".toList
  | .trigger => "triggers".toList
  | .event => "events".toList

structure DdlObject where
  kind : DdlKind
  name : Text
  ddl : Option Text
  reason : Option Text
  deriving DecidableEq, Repr

structure DumpFile where
  path : Text
  content : Text
  deriving DecidableEq, Repr

structure SkippedObject where
  kind : DdlKind
  name : Text
  reason : Option Text
  deriving DecidableEq, Repr

structure DumpPlan where
  files : List DumpFile
  skipped : List SkippedObject
  deriving DecidableEq, Repr

/-- The names that Windows keeps for devices. -/
def deviceNames : List Text :=
  ["con".toList, "prn".toList, "aux".toList, "nul".toList] ++
    "123456789".toList.map (fun c ↦ "com".toList ++ [c]) ++ "123456789".toList.map (fun c ↦ "lpt".toList ++ [c])

/-- What `.` of a regular expression does not match. -/
def isLineTerminator (c : Char) : Bool := c = '\n' || c = '\r' || c = '\u2028' || c = '\u2029'

/-- `(\..*)?$` of `RESERVED` on what follows the name of a device. -/
def isExtension : Text → Bool
  | [] => true
  | c :: rest => c = '.' && rest.all fun d ↦ !isLineTerminator d

/-- `RESERVED.test(s)`. -/
def isReserved (s : Text) : Bool :=
  deviceNames.any fun device ↦ device.isPrefixOf (s.map Char.toLower) && isExtension (s.drop device.length)

/-- `[<>:"/\\|?*\u0000-\u001f\u007f]`. -/
def isReplaced (c : Char) : Bool := c ∈ ['<', '>', ':', '"', '/', '\\', '|', '?', '*', '\x7f'] || c.toNat ≤ 0x1F

def maxName : ℕ := 120

/-- `s.replace(/[. ]+$/, …)`: the dots and blanks at the end, one underscore each. -/
def underscoreEnd (s : Text) : Text :=
  let kept := s.rdropWhile fun c ↦ c = '.' || c = ' '
  kept ++ List.replicate (s.length - kept.length) '_'

section

variable (normalize toLowerCase : Text → Text)

/-- `safeFileName` up to the test for a device. -/
def cleanName (name : Text) : Text :=
  underscoreEnd (((normalize name).map fun c ↦ if isReplaced c then '_' else c).take maxName)

def safeFileName (name : Text) : Text :=
  let s := cleanName normalize name
  let s := if isReserved s then '_' :: s else s
  if s = [] then ['_'] else s

/-- `ddl.replace(/\r\n?/g, "\n")`. -/
def unixLines : Text → Text
  | '\r' :: '\n' :: rest => '\n' :: unixLines rest
  | '\r' :: rest => '\n' :: unixLines rest
  | c :: rest => c :: unixLines rest
  | [] => []

/-- `ddlStatement` of `utils/backup.ts`. -/
def ddlStatement (ddl : Text) : Text := ((jsTrim ddl).rdropWhile fun c ↦ c = ';' || isJsSpace c) ++ [';']

def normalizeDdl (ddl : Text) : Text := ddlStatement (unixLines ddl) ++ ['\n']

/-- `x || y` on numbers. -/
def orElse (x y : ℤ) : ℤ := if x = 0 then y else x

/-- The order of the objects: by kind, then name, then DDL. -/
def compareObjects (a b : DdlObject) : ℤ :=
  orElse (order.idxOf a.kind - order.idxOf b.kind)
    (orElse (compareUnits a.name b.name) (compareUnits (a.ddl.getD []) (b.ddl.getD [])))

/-- `${base}~${n}.sql`. -/
def numbered (base : Text) (n : ℕ) : Text := base ++ '~' :: (Nat.toDigits 10 n ++ ".sql".toList)

/-- The loop that looks for a path that is not taken, for at most `fuel` paths. -/
def freePath (taken : List Text) (base : Text) : ℕ → ℕ → Text → Option Text
  | 0, _, _ => none
  | fuel + 1, n, path =>
    if toLowerCase path ∈ taken then freePath taken base fuel (n + 1) (numbered base n) else some path

/-- The state of the loop of `planDdlDump`. -/
structure Progress where
  taken : List Text
  files : List DumpFile
  skipped : List SkippedObject

/-- One pass of the loop. There are as many paths to try as are taken, and two more. -/
def planStep (st : Progress) (o : DdlObject) : Option Progress :=
  match o.ddl with
  | none => some { st with skipped := st.skipped ++ [⟨o.kind, o.name, o.reason⟩] }
  | some ddl =>
    if jsTrim ddl = [] then some { st with skipped := st.skipped ++ [⟨o.kind, o.name, o.reason⟩] }
    else
      let base := folder o.kind ++ '/' :: safeFileName normalize o.name
      (freePath toLowerCase st.taken base (st.taken.length + 2) 2 (base ++ ".sql".toList)).map fun path ↦
        { st with
          taken := toLowerCase path :: st.taken
          files := st.files ++ [⟨path, normalizeDdl ddl⟩] }

def planDdlDump (objects : List DdlObject) : Option DumpPlan :=
  let sorted := objects.insertionSort fun a b ↦ compareObjects a b ≤ 0
  (sorted.foldlM (planStep normalize toLowerCase) ⟨[], [], []⟩).map fun st ↦
    ⟨st.files.insertionSort fun a b ↦ compareUnits a.path b.path ≤ 0, st.skipped⟩

/-! ## What a dump promises -/

/-- The object has a DDL that is not blank. -/
def hasDdl (o : DdlObject) : Bool := jsTrim (o.ddl.getD []) ≠ []

/-- A character that Windows forbids in a name. -/
def isForbidden (c : Char) : Bool := c ∈ ['<', '>', ':', '"', '/', '\\', '|', '?', '*'] || c.toNat ≤ 0x1F

/-- The name of a device, whatever the extension after it. -/
def IsDeviceName (segment : Text) : Prop :=
  ∃ front rest, segment = front ++ rest ∧ front.map Char.toLower ∈ deviceNames ∧
    (rest = [] ∨ rest.head? = some '.')

/-- A name that every file system takes. -/
structure SafeSegment (segment : Text) : Prop where
  nonempty : segment ≠ []
  allowed : ∀ c ∈ segment, isForbidden c = false
  ending : segment.getLast? ≠ some '.' ∧ segment.getLast? ≠ some ' '
  not_device : ¬IsDeviceName segment

/-- The path of an object whose file is called `segment`. -/
def pathOf (kind : DdlKind) (segment : Text) : Text := folder kind ++ '/' :: (segment ++ ".sql".toList)

/-- One file for each object with a DDL, in the folder of its kind and under a name of its own, and one entry for
each of the others. -/
structure Complete (objects : List DdlObject) (plan : DumpPlan) : Prop where
  files : ∃ placed : List (DdlObject × Text), (placed.map Prod.fst).Perm (objects.filter hasDdl) ∧
    plan.files.Perm (placed.map fun p ↦ ⟨pathOf p.1.kind p.2, normalizeDdl (p.1.ddl.getD [])⟩) ∧
    ∀ p ∈ placed, SafeSegment p.2
  skipped : plan.skipped.Perm
    ((objects.filter fun o ↦ !hasDdl o).map fun o ↦ ⟨o.kind, o.name, o.reason⟩)
  distinct : (plan.files.map fun f ↦ toLowerCase f.path).Nodup

/-- The dump ends, is complete, and has the same files in whatever order the objects arrive. -/
def DumpsExactly (objects : List DdlObject) : Prop :=
  ∃ plan, planDdlDump normalize toLowerCase objects = some plan ∧ Complete toLowerCase objects plan ∧
    ∀ objects', objects'.Perm objects →
      ∃ plan', planDdlDump normalize toLowerCase objects' = some plan' ∧ plan'.files = plan.files

/-- A device with an extension that the test of `RESERVED` does not see: one with a line separator in it. -/
def HiddenDevice (s : Text) : Prop :=
  ∃ front ext, s = front ++ '.' :: ext ∧ front.map Char.toLower ∈ deviceNames ∧
    ∃ c ∈ ext, isLineTerminator c = true

/-! ## A free path -/

variable {normalize toLowerCase}

theorem freePath_spec {taken : List Text} {base path p : Text} {fuel n : ℕ}
    (h : freePath toLowerCase taken base fuel n path = some p) :
    toLowerCase p ∉ taken ∧ (p = path ∨ ∃ m, p = numbered base m) := by
  fun_induction freePath toLowerCase taken base fuel n path with
  | case1 => cases h
  | case2 fuel n path _ ih =>
    obtain ⟨hfree, hp | hp⟩ := ih h
    · exact ⟨hfree, .inr ⟨n, hp⟩⟩
    · exact ⟨hfree, .inr hp⟩
  | case3 fuel n path hfree =>
    cases h
    exact ⟨hfree, .inl rfl⟩

/-- The loop goes on only as long as every path it tries is taken. -/
theorem taken_of_freePath_eq_none {taken : List Text} {base path : Text} {fuel n : ℕ}
    (h : freePath toLowerCase taken base fuel n path = none) :
    (0 < fuel → toLowerCase path ∈ taken) ∧ ∀ i, i + 1 < fuel → toLowerCase (numbered base (n + i)) ∈ taken := by
  fun_induction freePath toLowerCase taken base fuel n path with
  | case1 => exact ⟨fun h ↦ absurd h (lt_irrefl 0), fun i hi ↦ absurd hi (Nat.not_lt_zero _)⟩
  | case2 fuel n path htaken ih =>
    obtain ⟨hfirst, hrest⟩ := ih h
    refine ⟨fun _ ↦ htaken, fun i hi ↦ ?_⟩
    cases i with
    | zero => exact hfirst (by omega)
    | succ i =>
      have hnext := hrest i (by omega)
      rwa [show n + 1 + i = n + (i + 1) by omega] at hnext
  | case3 => cases h

/-- More numbered paths than are taken: one of them is free. -/
theorem exists_freePath (hinj : ∀ base, Function.Injective fun n ↦ toLowerCase (numbered base n))
    (taken : List Text) (base path : Text) :
    ∃ p, freePath toLowerCase taken base (taken.length + 2) 2 path = some p := by
  rw [← Option.ne_none_iff_exists']
  intro hnone
  have hall := (taken_of_freePath_eq_none hnone).2
  have hsub : (Finset.range (taken.length + 1)).image (fun i ↦ toLowerCase (numbered base (2 + i))) ⊆
      taken.toFinset := by
    intro p hp
    obtain ⟨i, hi, rfl⟩ := Finset.mem_image.mp hp
    exact List.mem_toFinset.mpr (hall i (by have := Finset.mem_range.mp hi; omega))
  have hcard := Finset.card_le_card hsub
  rw [Finset.card_image_of_injective _ fun i j h ↦ Nat.add_left_cancel (hinj base h), Finset.card_range] at hcard
  have hlength := taken.toFinset_card_le
  omega

theorem toLower_of_isDigit {c : Char} (h : c.isDigit = true) : c.toLower = c := by
  have hupper : ¬(c.val ≥ 'A'.val ∧ c.val ≤ 'Z'.val) := by
    simp only [Char.isDigit, Bool.and_eq_true, decide_eq_true_eq, ge_iff_le, UInt32.le_iff_toNat_le] at h ⊢
    have hbounds : 'A'.val.toNat = 65 ∧ '9'.val.toNat = 57 := ⟨rfl, rfl⟩
    omega
  exact dif_neg hupper

/-- What is known of `toLowerCase`: a tilde stays and keeps what is around it apart, and on ASCII it lowers the
letters. -/
structure LowersAscii (toLowerCase : Text → Text) : Prop where
  tilde : ∀ s t, toLowerCase (s ++ '~' :: t) = toLowerCase s ++ '~' :: toLowerCase t
  ascii : ∀ t, (∀ c ∈ t, c.toNat < 0x80) → toLowerCase t = t.map Char.toLower

theorem LowersAscii.numbered_injective (h : LowersAscii toLowerCase) (base : Text) :
    Function.Injective fun n ↦ toLowerCase (numbered base n) := by
  have hnumber (n : ℕ) : toLowerCase (Nat.toDigits 10 n ++ ".sql".toList) = Nat.toDigits 10 n ++ ".sql".toList := by
    have hdigits := (Json.digits_toDigits n).2
    have hascii : ∀ c ∈ Nat.toDigits 10 n ++ ".sql".toList, c.toNat < 0x80 := by
      refine List.forall_mem_append.mpr ⟨fun c hc ↦ ?_, by decide⟩
      have hval : c.toNat = c.val.toNat := rfl
      have hnine : '9'.val.toNat = 57 := rfl
      have hdigit := hdigits c hc
      simp only [Char.isDigit, Bool.and_eq_true, decide_eq_true_eq, UInt32.le_iff_toNat_le] at hdigit
      omega
    have hsame : (Nat.toDigits 10 n).map Char.toLower = Nat.toDigits 10 n :=
      (List.map_congr_left fun c hc ↦ toLower_of_isDigit (hdigits c hc)).trans (List.map_id' _)
    rw [h.ascii _ hascii, List.map_append, hsame]
    rfl
  intro n m hnm
  dsimp only [numbered] at hnm
  rw [h.tilde, h.tilde, hnumber, hnumber] at hnm
  have htail := (List.cons.inj (List.append_cancel_left hnm)).2
  calc n = Json.natOfDigits (Nat.toDigits 10 n) := (Json.natOfDigits_toDigits n).symm
    _ = Json.natOfDigits (Nat.toDigits 10 m) := by rw [List.append_cancel_right htail]
    _ = m := Json.natOfDigits_toDigits m

/-! ## The order of the objects -/

/-- What the files depend on. -/
def content (o : DdlObject) : DdlKind × Text × Text := (o.kind, o.name, o.ddl.getD [])

/-- What `compareObjects` compares, in the lexicographic order. -/
def sortKey (c : DdlKind × Text × Text) : ℕ ×ₗ List ℕ ×ₗ List ℕ :=
  toLex (order.idxOf c.1, toLex (codeUnits c.2.1, codeUnits c.2.2))

theorem sortKey_injective : Function.Injective sortKey := by
  rintro ⟨kind, name, ddl⟩ ⟨kind', name', ddl'⟩ h
  have hpair := toLex.injective h
  have hkind : order.idxOf kind = order.idxOf kind' := congrArg Prod.fst hpair
  have hrest := toLex.injective (congrArg Prod.snd hpair)
  have hname : codeUnits name = codeUnits name' := congrArg Prod.fst hrest
  have hddl : codeUnits ddl = codeUnits ddl' := congrArg Prod.snd hrest
  have hkinds : kind = kind' := by
    revert hkind
    cases kind <;> cases kind' <;> decide
  rw [hkinds, codeUnits_injective hname, codeUnits_injective hddl]

theorem orElse_nonpos {x y : ℤ} : orElse x y ≤ 0 ↔ x < 0 ∨ x = 0 ∧ y ≤ 0 := by
  unfold orElse
  split <;> omega

theorem compareObjects_nonpos {a b : DdlObject} :
    compareObjects a b ≤ 0 ↔ sortKey (content a) ≤ sortKey (content b) := by
  have hlt : (order.idxOf a.kind : ℤ) - order.idxOf b.kind < 0 ↔ order.idxOf a.kind < order.idxOf b.kind := by omega
  have heq : (order.idxOf a.kind : ℤ) - order.idxOf b.kind = 0 ↔ order.idxOf a.kind = order.idxOf b.kind := by omega
  unfold compareObjects sortKey
  rw [orElse_nonpos, orElse_nonpos, compareUnits_neg, compareUnits_eq_zero, compareUnits_nonpos, hlt, heq,
    Prod.Lex.toLex_le_toLex, Prod.Lex.toLex_le_toLex, codeUnits_injective.eq_iff]
  rfl

/-- Sorted objects hold the same contents in the same order, whatever their order was. -/
theorem contents_of_perm {objects objects' : List DdlObject} (h : objects'.Perm objects) :
    (objects'.insertionSort fun a b ↦ compareObjects a b ≤ 0).map content =
      (objects.insertionSort fun a b ↦ compareObjects a b ≤ 0).map content := by
  have htotal : Std.Total fun a b : DdlObject ↦ compareObjects a b ≤ 0 :=
    ⟨fun a b ↦ by simpa only [compareObjects_nonpos] using le_total _ _⟩
  have htrans : IsTrans DdlObject fun a b ↦ compareObjects a b ≤ 0 :=
    ⟨fun a b c ↦ by simpa only [compareObjects_nonpos] using le_trans⟩
  let sorted (l : List DdlObject) := l.insertionSort fun a b ↦ compareObjects a b ≤ 0
  have hsorted (l : List DdlObject) : ((sorted l).map fun o ↦ sortKey (content o)).Pairwise (· ≤ ·) := by
    rw [List.pairwise_map]
    exact (List.pairwise_insertionSort _ l).imp compareObjects_nonpos.mp
  have hperm : (sorted objects').Perm (sorted objects) :=
    (List.perm_insertionSort _ _).trans (h.trans (List.perm_insertionSort _ _).symm)
  have hkeys := (hperm.map fun o ↦ sortKey (content o)).eq_of_pairwise (fun _ _ _ _ ↦ le_antisymm)
    (hsorted objects') (hsorted objects)
  apply List.map_injective_iff.mpr sortKey_injective
  rw [List.map_map, List.map_map]
  exact hkeys

/-! ## The loop -/

/-- A number behind a name, or none. -/
def IsSuffix (suffix : Text) : Prop := suffix = [] ∨ ∃ n, suffix = '~' :: Nat.toDigits 10 n

/-- What holds between two passes, `done` being the objects that were looked at. -/
structure Reached (normalize toLowerCase : Text → Text) (done : List DdlObject) (st : Progress) : Prop where
  files : ∃ placed : List (DdlObject × Text), placed.map Prod.fst = done.filter hasDdl ∧
    st.files = placed.map (fun p ↦ ⟨pathOf p.1.kind p.2, normalizeDdl (p.1.ddl.getD [])⟩) ∧
    ∀ p ∈ placed, ∃ suffix, p.2 = safeFileName normalize p.1.name ++ suffix ∧ IsSuffix suffix
  skipped : st.skipped = (done.filter fun o ↦ !hasDdl o).map fun o ↦ ⟨o.kind, o.name, o.reason⟩
  taken : ∀ path, path ∈ st.taken ↔ path ∈ st.files.map fun f ↦ toLowerCase f.path
  distinct : (st.files.map fun f ↦ toLowerCase f.path).Nodup

theorem Reached.skip {done : List DdlObject} {st : Progress} (h : Reached normalize toLowerCase done st)
    {o : DdlObject} (ho : hasDdl o = false) :
    Reached normalize toLowerCase (done ++ [o])
      { st with skipped := st.skipped ++ [⟨o.kind, o.name, o.reason⟩] } := by
  obtain ⟨placed, hplaced, hfiles, hsegments⟩ := h.files
  refine ⟨⟨placed, ?_, hfiles, hsegments⟩, ?_, h.taken, h.distinct⟩
  · rw [List.filter_append, hplaced]
    simp [ho]
  · rw [List.filter_append, List.map_append, h.skipped]
    simp [ho]

theorem Reached.place {done : List DdlObject} {st : Progress} (h : Reached normalize toLowerCase done st)
    {o : DdlObject} (ho : hasDdl o = true) {suffix path : Text} (hsuffix : IsSuffix suffix)
    (hpath : path = pathOf o.kind (safeFileName normalize o.name ++ suffix)) (hfree : toLowerCase path ∉ st.taken) :
    Reached normalize toLowerCase (done ++ [o])
      { st with
        taken := toLowerCase path :: st.taken
        files := st.files ++ [⟨path, normalizeDdl (o.ddl.getD [])⟩] } := by
  obtain ⟨placed, hplaced, hfiles, hsegments⟩ := h.files
  refine ⟨⟨placed ++ [(o, safeFileName normalize o.name ++ suffix)], ?_, ?_, ?_⟩, ?_, ?_, ?_⟩
  · rw [List.filter_append, List.map_append, hplaced]
    simp [ho]
  · rw [List.map_append, hfiles, hpath]
    rfl
  · exact List.forall_mem_append.mpr ⟨hsegments, List.forall_mem_singleton.mpr ⟨suffix, rfl, hsuffix⟩⟩
  · rw [List.filter_append, List.map_append, h.skipped]
    simp [ho]
  · intro p
    rw [List.mem_cons, h.taken, List.map_append, List.mem_append, List.map_singleton, List.mem_singleton, or_comm]
  · rw [List.map_append, List.map_singleton, List.nodup_append]
    refine ⟨h.distinct, List.nodup_singleton _, fun p hp q hq ↦ ?_⟩
    rw [List.mem_singleton.mp hq]
    rintro rfl
    exact hfree ((h.taken _).mpr hp)

theorem Reached.step (hlower : LowersAscii toLowerCase) {done : List DdlObject} {st : Progress}
    (h : Reached normalize toLowerCase done st) (o : DdlObject) :
    ∃ st', planStep normalize toLowerCase st o = some st' ∧ Reached normalize toLowerCase (done ++ [o]) st' := by
  unfold planStep
  cases hddl : o.ddl with
  | none =>
    have ho : hasDdl o = false := by
      rw [hasDdl, hddl]
      decide
    exact ⟨_, rfl, h.skip ho⟩
  | some ddl =>
    dsimp only
    have hget : o.ddl.getD [] = ddl := by rw [hddl, Option.getD_some]
    by_cases hblank : jsTrim ddl = []
    · rw [if_pos hblank]
      exact ⟨_, rfl, h.skip (by rw [hasDdl, hget, hblank]; decide)⟩
    · rw [if_neg hblank]
      have ho : hasDdl o = true := by
        rw [hasDdl, hget]
        exact decide_eq_true hblank
      obtain ⟨path, hpath⟩ := exists_freePath hlower.numbered_injective st.taken
        (folder o.kind ++ '/' :: safeFileName normalize o.name)
        (folder o.kind ++ '/' :: safeFileName normalize o.name ++ ".sql".toList)
      obtain ⟨hfree, hshape⟩ := freePath_spec hpath
      have hplace {suffix : Text} (hsuffix : IsSuffix suffix)
          (hpath : path = pathOf o.kind (safeFileName normalize o.name ++ suffix)) :=
        h.place ho hsuffix hpath hfree
      rw [hget] at hplace
      rw [hpath, Option.map_some]
      obtain hpath | ⟨n, hpath⟩ := hshape
      · exact ⟨_, rfl, hplace (.inl rfl) (by simp [hpath, pathOf])⟩
      · exact ⟨_, rfl, hplace (.inr ⟨n, rfl⟩) (by simp [hpath, numbered, pathOf])⟩

theorem Reached.run (hlower : LowersAscii toLowerCase) {done : List DdlObject} {st : Progress}
    (h : Reached normalize toLowerCase done st) (objects : List DdlObject) :
    ∃ st', objects.foldlM (planStep normalize toLowerCase) st = some st' ∧
      Reached normalize toLowerCase (done ++ objects) st' := by
  induction objects generalizing done st with
  | nil => exact ⟨st, rfl, by rwa [List.append_nil]⟩
  | cons o objects ih =>
    obtain ⟨st₁, hstep, h₁⟩ := h.step hlower o
    obtain ⟨st₂, hrun, h₂⟩ := ih h₁
    refine ⟨st₂, ?_, by rwa [List.append_assoc] at h₂⟩
    rw [List.foldlM_cons, hstep]
    exact hrun

/-- One pass on what the files depend on. -/
def fileStep (normalize toLowerCase : Text → Text) (st : List Text × List DumpFile) (c : DdlKind × Text × Text) :
    Option (List Text × List DumpFile) :=
  if jsTrim c.2.2 = [] then some st
  else
    let base := folder c.1 ++ '/' :: safeFileName normalize c.2.1
    (freePath toLowerCase st.1 base (st.1.length + 2) 2 (base ++ ".sql".toList)).map fun path ↦
      (toLowerCase path :: st.1, st.2 ++ [⟨path, normalizeDdl c.2.2⟩])

theorem planStep_files (st : Progress) (o : DdlObject) :
    (planStep normalize toLowerCase st o).map (fun st ↦ (st.taken, st.files)) =
      fileStep normalize toLowerCase (st.taken, st.files) (content o) := by
  unfold planStep fileStep content
  cases o.ddl with
  | none =>
    exact (if_pos (show jsTrim [] = [] by decide)).symm
  | some ddl =>
    dsimp only [Option.getD_some]
    split
    · rfl
    · rw [Option.map_map]
      rfl

theorem foldlM_files (objects : List DdlObject) (st : Progress) :
    (objects.foldlM (planStep normalize toLowerCase) st).map (fun st ↦ (st.taken, st.files)) =
      (objects.map content).foldlM (fileStep normalize toLowerCase) (st.taken, st.files) := by
  induction objects generalizing st with
  | nil => rfl
  | cons o objects ih =>
    rw [List.foldlM_cons, List.map_cons, List.foldlM_cons, ← planStep_files]
    cases planStep normalize toLowerCase st o with
    | none => rfl
    | some st' => exact ih st'

/-! ## Safe names -/

theorem underscoreEnd_allowed {s : Text} (h : ∀ c ∈ s, isReplaced c = false) :
    ∀ c ∈ underscoreEnd s, isReplaced c = false := by
  unfold underscoreEnd
  refine List.forall_mem_append.mpr ⟨fun c hc ↦ h c ((List.rdropWhile_prefix _ _).mem hc), fun c hc ↦ ?_⟩
  rw [List.eq_of_mem_replicate hc]
  decide

theorem underscoreEnd_ending (s : Text) :
    (underscoreEnd s).getLast? ≠ some '.' ∧ (underscoreEnd s).getLast? ≠ some ' ' := by
  unfold underscoreEnd
  dsimp only
  let kept := s.rdropWhile fun c ↦ c = '.' || c = ' '
  cases hlength : s.length - kept.length with
  | zero =>
    rw [List.replicate_zero, List.append_nil]
    have hlast (c : Char) (hc : kept.getLast? = some c) : (c = '.' || c = ' ') = false := by
      have hne : kept ≠ [] := by
        intro hnil
        rw [hnil] at hc
        cases hc
      have hnot := List.rdropWhile_last_not (fun c : Char ↦ c = '.' || c = ' ') s hne
      rw [List.getLast?_eq_some_getLast hne] at hc
      rw [← Option.some.inj hc]
      simpa using hnot
    constructor
    · exact fun hc ↦ absurd (hlast '.' hc) (by decide)
    · exact fun hc ↦ absurd (hlast ' ' hc) (by decide)
  | succ n =>
    rw [List.replicate_succ', ← List.append_assoc, List.getLast?_concat]
    decide

theorem cleanName_allowed (name : Text) : ∀ c ∈ cleanName normalize name, isReplaced c = false := by
  apply underscoreEnd_allowed
  intro c hc
  obtain ⟨d, -, rfl⟩ := List.mem_map.mp (List.mem_of_mem_take hc)
  split
  · decide
  · next h => simpa using h

theorem isForbidden_le {c : Char} (h : isReplaced c = false) : isForbidden c = false := by
  simp only [isReplaced, isForbidden, Bool.or_eq_false_iff, decide_eq_false_iff_not] at h ⊢
  refine ⟨fun hmem ↦ h.1 ?_, h.2⟩
  simp only [List.mem_cons, List.not_mem_nil, or_false] at hmem ⊢
  tauto

/-- What the names of the devices look like. -/
theorem deviceNames_shape : ∀ device ∈ deviceNames, device ≠ [] ∧ device.head? ≠ some '_' ∧ '.' ∉ device ∧
    '~' ∉ device := by decide

/-- A name up to its first dot. -/
def stem (s : Text) : Text := s.takeWhile (· ≠ '.')

/-- A name from its first dot on. -/
def extension (s : Text) : Text := s.dropWhile (· ≠ '.')

theorem stem_append_extension (s : Text) : stem s ++ extension s = s := List.takeWhile_append_dropWhile

theorem extension_shape (s : Text) : extension s = [] ∨ (extension s).head? = some '.' := by
  cases h : extension s with
  | nil => exact .inl rfl
  | cons c rest =>
    have hc := List.head?_dropWhile_not (fun c : Char ↦ c ≠ '.') s
    rw [show s.dropWhile (fun c ↦ c ≠ '.') = c :: rest from h] at hc
    exact .inr (by simpa using hc)

/-- A device in front of a dot is the stem. -/
theorem stem_of_device {front rest : Text} (hfront : front.map Char.toLower ∈ deviceNames)
    (hrest : rest = [] ∨ rest.head? = some '.') :
    stem (front ++ rest) = front ∧ extension (front ++ rest) = rest := by
  have hdot : ∀ c ∈ front, decide (c ≠ '.') = true := by
    intro c hc
    refine decide_eq_true fun heq ↦ (deviceNames_shape _ hfront).2.2.1 ?_
    exact List.mem_map.mpr ⟨c, hc, by rw [heq]; decide⟩
  have htake : rest.takeWhile (fun c ↦ c ≠ '.') = [] ∧ rest.dropWhile (fun c ↦ c ≠ '.') = rest := by
    cases rest with
    | nil => exact ⟨rfl, rfl⟩
    | cons c rest =>
      have hc : c = '.' := by simpa using hrest
      simp [hc]
  unfold stem extension
  rw [List.takeWhile_append_of_pos hdot, List.dropWhile_append_of_pos hdot, htake.1, htake.2, List.append_nil]
  exact ⟨rfl, rfl⟩

theorem isDeviceName_iff {s : Text} : IsDeviceName s ↔ (stem s).map Char.toLower ∈ deviceNames := by
  constructor
  · rintro ⟨front, rest, rfl, hfront, hrest⟩
    rwa [(stem_of_device hfront hrest).1]
  · exact fun h ↦ ⟨stem s, extension s, (stem_append_extension s).symm, h, extension_shape s⟩

theorem hiddenDevice_iff {s : Text} :
    HiddenDevice s ↔ (stem s).map Char.toLower ∈ deviceNames ∧ isExtension (extension s) = false := by
  constructor
  · rintro ⟨front, ext, rfl, hfront, c, hc, hline⟩
    obtain ⟨hstem, hextension⟩ := @stem_of_device front ('.' :: ext) hfront (.inr rfl)
    rw [hstem, hextension]
    refine ⟨hfront, ?_⟩
    simp only [isExtension, decide_true, Bool.true_and, List.all_eq_false]
    exact ⟨c, hc, by simp [hline]⟩
  · rintro ⟨hstem, hextension⟩
    obtain hnil | hdot := extension_shape s
    · rw [hnil] at hextension
      cases hextension
    · obtain ⟨ext, hext⟩ : ∃ ext, extension s = '.' :: ext := by
        cases h : extension s with
        | nil => simp [h] at hdot
        | cons c ext =>
          rw [h] at hdot
          exact ⟨ext, by rw [Option.some.inj hdot]⟩
      rw [hext] at hextension
      obtain ⟨c, hc, hline⟩ : ∃ c ∈ ext, isLineTerminator c = true := by simpa [isExtension] using hextension
      exact ⟨stem s, ext, by rw [← hext, stem_append_extension], hstem, c, hc, hline⟩

theorem isReserved_iff {s : Text} :
    isReserved s = true ↔ (stem s).map Char.toLower ∈ deviceNames ∧ isExtension (extension s) = true := by
  unfold isReserved
  rw [List.any_eq_true]
  constructor
  · rintro ⟨device, hdevice, h⟩
    obtain ⟨hstart, hext⟩ := Bool.and_eq_true_iff.mp h
    obtain ⟨rest, hrest⟩ := List.isPrefixOf_iff_prefix.mp hstart
    have hfront : (s.take device.length).map Char.toLower = device := by
      rw [List.map_take, ← hrest, List.take_left']
      rfl
    have hshape : s.drop device.length = [] ∨ (s.drop device.length).head? = some '.' := by
      cases hdrop : s.drop device.length with
      | nil => exact .inl rfl
      | cons c ext =>
        rw [hdrop, isExtension, Bool.and_eq_true, decide_eq_true_iff] at hext
        exact .inr (by rw [List.head?_cons, hext.1])
    obtain ⟨hstem, hextension⟩ := stem_of_device (hfront ▸ hdevice) hshape
    rw [List.take_append_drop] at hstem hextension
    rw [hstem, hextension, hfront]
    exact ⟨hdevice, hext⟩
  · rintro ⟨hstem, hextension⟩
    refine ⟨_, hstem, Bool.and_eq_true_iff.mpr ⟨List.isPrefixOf_iff_prefix.mpr ⟨(extension s).map Char.toLower, ?_⟩, ?_⟩⟩
    · rw [← List.map_append, stem_append_extension]
    · have hdrop : s.drop (stem s).length = extension s := by
        calc s.drop (stem s).length = (stem s ++ extension s).drop (stem s).length := by rw [stem_append_extension]
          _ = extension s := List.drop_left
      rwa [List.length_map, hdrop]

theorem isDeviceName_append {s suffix : Text} (hsuffix : IsSuffix suffix) (hs : isReserved s = false) :
    IsDeviceName (s ++ suffix) ↔ HiddenDevice s := by
  have hhidden : HiddenDevice s ↔ (stem s).map Char.toLower ∈ deviceNames := by
    rw [hiddenDevice_iff]
    refine and_iff_left_of_imp fun hstem ↦ ?_
    by_contra hext
    rw [isReserved_iff.mpr ⟨hstem, by simpa using hext⟩] at hs
    cases hs
  rw [isDeviceName_iff, hhidden]
  obtain rfl | ⟨n, rfl⟩ := hsuffix
  · rw [List.append_nil]
  · by_cases hdot : ∀ c ∈ s, decide (c ≠ '.') = true
    · -- without a dot the tilde is in the stem, and the name itself is no device
      have hnot : stem s = s ∧ extension s = [] := by
        unfold stem extension
        exact ⟨List.takeWhile_eq_self_iff.mpr hdot, List.dropWhile_eq_nil_iff.mpr hdot⟩
      refine iff_of_false (fun h ↦ (deviceNames_shape _ h).2.2.2 ?_) fun h ↦ ?_
      · rw [stem, List.takeWhile_append_of_pos hdot, List.takeWhile_cons_of_pos (by decide)]
        exact List.mem_map.mpr ⟨'~', by simp, by decide⟩
      · rw [isReserved_iff.mpr ⟨h, by rw [hnot.2]; rfl⟩] at hs
        cases hs
    · have hstem : stem (s ++ '~' :: Nat.toDigits 10 n) = stem s := by
        have hne : (s.takeWhile fun c ↦ c ≠ '.').length ≠ s.length := fun hlength ↦
          hdot (List.takeWhile_eq_self_iff.mp ((List.takeWhile_prefix _).eq_of_length hlength))
        rw [stem, List.takeWhile_append, if_neg hne]
        rfl
      rw [hstem]

theorem not_isDeviceName_underscore (s : Text) : ¬IsDeviceName ('_' :: s) := by
  rw [isDeviceName_iff, stem, List.takeWhile_cons_of_pos (by decide)]
  exact fun h ↦ (deviceNames_shape _ h).2.1 rfl

/-- What is left to prove of a clean name with its suffix is that it is no device. -/
theorem safeSegment_of_allowed {t suffix : Text} (hne : t ≠ []) (hallowed : ∀ c ∈ t, isReplaced c = false)
    (hending : t.getLast? ≠ some '.' ∧ t.getLast? ≠ some ' ') (hsuffix : IsSuffix suffix) :
    SafeSegment (t ++ suffix) ↔ ¬IsDeviceName (t ++ suffix) := by
  refine ⟨SafeSegment.not_device, fun hdevice ↦ ⟨?_, ?_, ?_, hdevice⟩⟩
  · exact fun h ↦ hne (List.append_eq_nil_iff.mp h).1
  · refine List.forall_mem_append.mpr ⟨fun c hc ↦ isForbidden_le (hallowed c hc), fun c hc ↦ ?_⟩
    obtain rfl | ⟨n, rfl⟩ := hsuffix
    · cases hc
    · obtain rfl | hc := List.mem_cons.mp hc
      · decide
      · have hdigit := (Json.digits_toDigits n).2 c hc
        have hother : ∀ d ∈ ['<', '>', ':', '"', '/', '\\', '|', '?', '*'], d.isDigit = false := by decide
        have hmem : c ∉ ['<', '>', ':', '"', '/', '\\', '|', '?', '*'] := fun hmem ↦ by simp [hother c hmem] at hdigit
        have hlow : ¬c.toNat ≤ 0x1F := by
          have hval : c.toNat = c.val.toNat := rfl
          have hzero : '0'.val.toNat = 48 := rfl
          simp only [Char.isDigit, Bool.and_eq_true, decide_eq_true_eq, ge_iff_le, UInt32.le_iff_toNat_le] at hdigit
          omega
        simp [isForbidden, hmem, hlow]
  · obtain rfl | ⟨n, rfl⟩ := hsuffix
    · rwa [List.append_nil]
    · have hdigits := Json.digits_toDigits n
      have hlast : (t ++ '~' :: Nat.toDigits 10 n).getLast? = some ((Nat.toDigits 10 n).getLast hdigits.1) := by
        rw [List.getLast?_append_of_ne_nil _ (List.cons_ne_nil _ _), List.getLast?_cons_of_ne_nil hdigits.1,
          List.getLast?_eq_some_getLast hdigits.1]
      have hdigit := hdigits.2 _ (List.getLast_mem hdigits.1)
      rw [hlast]
      constructor
      · intro h
        rw [Option.some.inj h] at hdigit
        exact absurd hdigit (by decide)
      · intro h
        rw [Option.some.inj h] at hdigit
        exact absurd hdigit (by decide)

theorem safeSegment_iff (name : Text) {suffix : Text} (hsuffix : IsSuffix suffix) :
    SafeSegment (safeFileName normalize name ++ suffix) ↔ ¬HiddenDevice (cleanName normalize name) := by
  have hallowed := @cleanName_allowed normalize name
  have hending : (cleanName normalize name).getLast? ≠ some '.' ∧ (cleanName normalize name).getLast? ≠ some ' ' :=
    underscoreEnd_ending _
  generalize hs : cleanName normalize name = s at hallowed hending
  -- an underscore in front, whether of a device or in place of nothing
  have hunderscore : SafeSegment ('_' :: s ++ suffix) := by
    refine (safeSegment_of_allowed (List.cons_ne_nil _ _) ?_ ?_ hsuffix).mpr (not_isDeviceName_underscore _)
    · exact List.forall_mem_cons.mpr ⟨by decide, hallowed⟩
    · cases s with
      | nil => decide
      | cons c s => simpa [List.getLast?_cons_cons] using hending
  unfold safeFileName
  dsimp only
  rw [hs]
  by_cases hreserved : isReserved s = true
  · rw [if_pos hreserved, if_neg (List.cons_ne_nil _ _)]
    refine iff_of_true hunderscore fun hhidden ↦ ?_
    have hext := (hiddenDevice_iff.mp hhidden).2
    rw [(isReserved_iff.mp hreserved).2] at hext
    cases hext
  · rw [if_neg hreserved]
    by_cases hnil : s = []
    · subst hnil
      rw [if_pos rfl]
      exact iff_of_true hunderscore fun ⟨front, ext, h, _⟩ ↦ by simp at h
    · rw [if_neg hnil, safeSegment_of_allowed hnil hallowed hending hsuffix,
        isDeviceName_append hsuffix (Bool.not_eq_true _ |>.mp hreserved)]

/-! ## The dump -/

theorem reached_nil : Reached normalize toLowerCase [] ⟨[], [], []⟩ :=
  ⟨⟨[], rfl, rfl, fun _ h ↦ by cases h⟩, rfl, fun path ↦ Iff.rfl, List.nodup_nil⟩

/-- A path tells its segment: no folder has a slash in it. -/
theorem segment_of_path {kind kind' : DdlKind} {s s' : Text} (h : pathOf kind s = pathOf kind' s') : s = s' := by
  have hfolder (kind : DdlKind) : ∀ c ∈ folder kind, decide (c ≠ '/') = true := by cases kind <;> decide
  have hdrop (kind : DdlKind) (s : Text) :
      (pathOf kind s).dropWhile (fun c ↦ decide (c ≠ '/')) = '/' :: (s ++ ".sql".toList) := by
    rw [pathOf, List.dropWhile_append_of_pos (hfolder kind)]
    rfl
  have hrest := hdrop kind s
  rw [h, hdrop kind' s'] at hrest
  exact (List.append_cancel_right (List.cons.inj hrest).2).symm

theorem planDdlDump_files (objects : List DdlObject) :
    (planDdlDump normalize toLowerCase objects).map DumpPlan.files =
      (((objects.insertionSort fun a b ↦ compareObjects a b ≤ 0).map content).foldlM
        (fileStep normalize toLowerCase) ([], [])).map fun r ↦
          r.2.insertionSort fun a b ↦ compareUnits a.path b.path ≤ 0 := by
  have hrun := @foldlM_files normalize toLowerCase (objects.insertionSort fun a b ↦ compareObjects a b ≤ 0)
    ⟨[], [], []⟩
  rw [← hrun, planDdlDump, Option.map_map, Option.map_map]
  rfl

/-- The loop ends, and what it has reached is the plan. -/
theorem planDdlDump_reached (hlower : LowersAscii toLowerCase) (objects : List DdlObject) :
    ∃ st plan, planDdlDump normalize toLowerCase objects = some plan ∧
      Reached normalize toLowerCase (objects.insertionSort fun a b ↦ compareObjects a b ≤ 0) st ∧
      plan.files.Perm st.files ∧ plan.skipped = st.skipped := by
  obtain ⟨st, hrun, hst⟩ := (@reached_nil normalize toLowerCase).run hlower
    (objects.insertionSort fun a b ↦ compareObjects a b ≤ 0)
  refine ⟨st, _, by rw [planDdlDump, hrun, Option.map_some], hst, List.perm_insertionSort _ _, rfl⟩

theorem not_hiddenDevice_of_dumps (hlower : LowersAscii toLowerCase) {objects : List DdlObject}
    (h : DumpsExactly normalize toLowerCase objects) :
    ∀ o ∈ objects, hasDdl o = true → ¬HiddenDevice (cleanName normalize o.name) := by
  obtain ⟨st, plan, hplan, hst, hfiles, -⟩ := @planDdlDump_reached normalize toLowerCase hlower objects
  obtain ⟨placed, hplaced, hplacedFiles, hsegments⟩ := hst.files
  obtain ⟨plan', hplan', hcomplete, -⟩ := h
  cases hplan.symm.trans hplan'
  obtain ⟨placed', -, hperm, hsafe⟩ := hcomplete.files
  intro o ho hddl
  have hmem : o ∈ placed.map Prod.fst := by
    rw [hplaced]
    exact List.mem_filter.mpr ⟨(List.perm_insertionSort _ _).mem_iff.mpr ho, hddl⟩
  obtain ⟨⟨o, segment⟩, hp, rfl⟩ := List.mem_map.mp hmem
  obtain ⟨suffix, hsegment, hsuffix⟩ := hsegments _ hp
  have hfile := (hfiles.symm.trans hperm).mem_iff.mp (hplacedFiles ▸ List.mem_map_of_mem hp)
  obtain ⟨p', hp', hpath⟩ := List.mem_map.mp hfile
  have hsame : p'.2 = segment := segment_of_path (DumpFile.mk.inj hpath).1
  exact (safeSegment_iff o.name hsuffix).mp (hsegment ▸ hsame ▸ hsafe p' hp')

theorem dumps_of_not_hiddenDevice (hlower : LowersAscii toLowerCase) {objects : List DdlObject}
    (h : ∀ o ∈ objects, hasDdl o = true → ¬HiddenDevice (cleanName normalize o.name)) :
    DumpsExactly normalize toLowerCase objects := by
  obtain ⟨st, plan, hplan, hst, hfiles, hskipped⟩ := @planDdlDump_reached normalize toLowerCase hlower objects
  obtain ⟨placed, hplaced, hplacedFiles, hsegments⟩ := hst.files
  have hsorted : (objects.insertionSort fun a b ↦ compareObjects a b ≤ 0).Perm objects := List.perm_insertionSort _ _
  refine ⟨plan, hplan, ⟨⟨placed, hplaced ▸ hsorted.filter hasDdl, hplacedFiles ▸ hfiles, fun p hp ↦ ?_⟩, ?_, ?_⟩,
    fun objects' hperm ↦ ?_⟩
  · obtain ⟨suffix, hsegment, hsuffix⟩ := hsegments p hp
    have hmem : p.1 ∈ (objects.insertionSort fun a b ↦ compareObjects a b ≤ 0).filter hasDdl :=
      hplaced ▸ List.mem_map_of_mem hp
    obtain ⟨hmem, hddl⟩ := List.mem_filter.mp hmem
    rw [hsegment]
    exact (safeSegment_iff p.1.name hsuffix).mpr (h p.1 (hsorted.mem_iff.mp hmem) hddl)
  · rw [hskipped, hst.skipped]
    exact (hsorted.filter _).map _
  · exact (hfiles.map _).nodup_iff.mpr hst.distinct
  · obtain ⟨-, plan', hplan', -⟩ := @planDdlDump_reached normalize toLowerCase hlower objects'
    refine ⟨plan', hplan', Option.some.inj ?_⟩
    calc some plan'.files = (planDdlDump normalize toLowerCase objects').map DumpPlan.files := by
          rw [hplan', Option.map_some]
      _ = (planDdlDump normalize toLowerCase objects).map DumpPlan.files := by
          rw [planDdlDump_files, planDdlDump_files, contents_of_perm hperm]
      _ = some plan.files := by rw [hplan, Option.map_some]

/-- The dump is what it promises unless the clean name of an object is a device with a line separator in its
extension. -/
theorem planDdlDump_exact (normalize : Text → Text) (hlower : LowersAscii toLowerCase) (objects : List DdlObject) :
    DumpsExactly normalize toLowerCase objects ↔
      ∀ o ∈ objects, hasDdl o = true → ¬HiddenDevice (cleanName normalize o.name) :=
  ⟨not_hiddenDevice_of_dumps hlower, dumps_of_not_hiddenDevice hlower⟩

end

theorem lowersAscii_map : LowersAscii fun t ↦ t.map Char.toLower where
  tilde s t := by
    rw [List.map_append, List.map_cons]
    rfl
  ascii _ _ := rfl

/-- Two tables that a disk would not tell apart, and a view that has no DDL. -/
def usersTwice : List DdlObject :=
  [⟨.table, "users".toList, some "a".toList, none⟩, ⟨.table, "Users".toList, some "b".toList, none⟩,
    ⟨.view, "v".toList, none, none⟩]

theorem planDdlDump_usersTwice : DumpsExactly id (fun t ↦ t.map Char.toLower) usersTwice := by
  refine (planDdlDump_exact id lowersAscii_map usersTwice).mpr fun o ho _ hhidden ↦ ?_
  have hall : ∀ o ∈ usersTwice, (stem (cleanName id o.name)).map Char.toLower ∉ deviceNames := by decide
  exact hall o ho (hiddenDevice_iff.mp hhidden).1

/-- A table whose file would be called `con` with an extension. -/
theorem planDdlDump_names_device :
    ¬DumpsExactly id (fun t ↦ t.map Char.toLower) [⟨.table, "con.\u2028".toList, some "a".toList, none⟩] := by
  intro h
  refine not_hiddenDevice_of_dumps lowersAscii_map h _ (List.mem_singleton_self _) (by decide) ?_
  exact ⟨"con".toList, "\u2028".toList, by decide, by decide, '\u2028', by decide, by decide⟩

end Squaero.Front.DdlDump
