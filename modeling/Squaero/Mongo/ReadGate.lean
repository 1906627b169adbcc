import Squaero.Gate.Agreement
import Squaero.Lib.Json
import Squaero.Mongo.QueryParse

/-!
# The read gate of MongoDB

`classifyMongo` cuts a text at every semicolon and looks at the head of each fragment; the driver
runs the whole text as one command. What the gate calls a read is a `find` or an `aggregate` to the
driver too, since the first parenthesis of the text is in the first fragment. It can still be an
aggregate that writes, when the stage is written with escapes or behind a semicolon.
-/

namespace Squaero.Mongo

open Squaero.Lib
open Squaero.Gate (StmtClass)

/-- A stage object keyed `$out` or `$merge`. -/
def isWriteStage : Json → Bool
  | .obj members => members.any fun m ↦ m.1 ∈ ["$out".toList, "$merge".toList]
  | _ => false

def hasWriteStage : Json → Bool
  | .arr stages => stages.any isWriteStage
  | _ => false

variable (readPipeline : Text → Option Json)

/-- The driver runs `t` as an aggregate whose pipeline, read as JSON, has a stage that writes. -/
def WritesPipeline (t : Text) : Prop :=
  ∃ q pipeline, mongoQueryParse (cString (utf8 t)) = .ok q ∧ q.op = .aggregate ∧
    readPipeline (q.filter.getD []) = some pipeline ∧ hasWriteStage pipeline

/-- A text the gate calls a read is no command, a `find`, or an `aggregate` that does not write. -/
def ReadGateHolds (t : Text) : Prop :=
  Gate.SafeMode.classifySql t (some "mongodb".toList) = .read →
    ∀ q, mongoQueryParse (cString (utf8 t)) = .ok q →
      q.op = .find ∨ q.op = .aggregate ∧
        ∀ pipeline, readPipeline (q.filter.getD []) = some pipeline → !hasWriteStage pipeline

/-- A fragment between semicolons that makes the gate call the text a write: it is no call on a
collection, or a call of another method, or an aggregate that names a writing stage. -/
def Blocked (raw : Text) : Prop :=
  let part := jsTrim raw
  part ≠ [] ∧ (Gate.SafeMode.isDbCall part →
    Gate.SafeMode.methodOf part ≠ "find".toList ∧
      (Gate.SafeMode.methodOf part = "aggregate".toList → Gate.SafeMode.namesWriteStage part))

/-! ## What the driver takes for the method -/

theorem takeWhile_append_of_mem {d : Char} {text : Text} (h : d ∈ text) (more : Text) :
    (text ++ more).takeWhile (· ≠ d) = text.takeWhile (· ≠ d) := by
  induction text with
  | nil => simp at h
  | cons c text ih =>
    by_cases hc : c = d
    · simp [hc]
    · have hmem : d ∈ text := by simpa [Ne.symm hc] using h
      simp only [List.cons_append, List.takeWhile_cons, ih hmem]

/-- The identifier at the end of a text does not reach over a character that is no letter. -/
theorem rtakeWhile_isAlpha_append {text : Text} (before : Text) (d : Char)
    (hd : d.isAlpha = false) :
    (before ++ d :: text).rtakeWhile Char.isAlpha = text.rtakeWhile Char.isAlpha := by
  induction text using List.reverseRecOn with
  | nil => simp [hd]
  | append_singleton text c ih =>
    have hassoc : before ++ d :: (text ++ [c]) = (before ++ d :: text) ++ [c] := by simp
    rw [hassoc, List.rtakeWhile_concat, List.rtakeWhile_concat, ih]

theorem locateMethod_ok {named : Option Text} {collStart : Text} {call : Call}
    (h : locateMethod named collStart = .ok call) :
    '(' ∈ collStart ∧ call.method ≠ [] ∧
      call.method = (skipWsBack (collStart.takeWhile (· ≠ '('))).rtakeWhile Char.isAlpha := by
  simp only [locateMethod] at h
  split at h
  · cases h
  next hparen =>
    split at h
    · cases h
    next hmethod =>
      split at h
      · cases h
      · cases h
        exact ⟨not_not.1 hparen, fun hnil ↦ hmethod (.inl hnil), rfl⟩

/-- A parsed command starts with `db.`, and the method is in front of its first parenthesis unless
the collection is named by `getCollection`. -/
theorem parseCall_ok {input : Text} {call : Call} (h : parseCall input = .ok call) :
    ∃ collStart, skipWs input = "db.".toList ++ collStart ∧
      (isGetCollection collStart ∨
        '(' ∈ collStart ∧ call.method ≠ [] ∧
          call.method = (skipWsBack (collStart.takeWhile (· ≠ '('))).rtakeWhile Char.isAlpha) := by
  simp only [parseCall] at h
  split at h
  · cases h
  next hprefix =>
    refine ⟨(skipWs input).drop 3, ?_, ?_⟩
    · rw [Bool.not_eq_true', Bool.not_eq_false, List.isPrefixOf_iff_prefix] at hprefix
      obtain ⟨rest, hrest⟩ := hprefix
      simp [← hrest]
    split at h
    · next hget => exact .inl hget
    · exact .inr (locateMethod_ok h)

/-! ## What the gate takes for the method -/

open Gate.SafeMode in
theorem mem_of_callsAfterDot {text : Text} (h : callsAfterDot text) : '(' ∈ text := by
  induction text with
  | nil => simp [callsAfterDot] at h
  | cons c rest ih =>
    simp only [callsAfterDot, Bool.and_eq_true, Bool.or_eq_true] at h
    rcases h.2 with ⟨-, hcall⟩ | hlater
    · simp only [callsNext, Bool.and_eq_true, decide_eq_true_eq] at hcall
      have hmem := List.mem_of_mem_head? hcall.2
      have hsub : ((List.drop 1 rest).dropWhile Char.isAlpha).dropWhile isJsSpace <:+ rest :=
        (List.dropWhile_suffix _).trans ((List.dropWhile_suffix _).trans (List.drop_suffix 1 rest))
      exact List.mem_cons_of_mem c (hsub.subset hmem)
    · exact List.mem_cons_of_mem c (ih hlater)

theorem isJsSpace_of_isSpace {c : Char} (h : isSpace c) : isJsSpace c := by
  simp [isJsSpace, h]

theorem not_isJsSpace_of_isAlpha {c : Char} (h : c.isAlpha) : isJsSpace c = false := by
  by_contra hspace
  have := isWordChar_of_isJsSpace (by simpa using hspace)
  simp [isWordChar, h] at this

/-- What ends in a letter behind its C blanks is trimmed alike by C and by JavaScript. -/
theorem jsTrimEnd_eq_skipWsBack {text : Text}
    (h : (skipWsBack text).rtakeWhile Char.isAlpha ≠ []) : jsTrimEnd text = skipWsBack text := by
  have hblanks : ∀ c ∈ text.rtakeWhile isSpace, isJsSpace c := fun c hc ↦
    isJsSpace_of_isSpace (List.mem_rtakeWhile_imp hc)
  have hsplit : skipWsBack text ++ text.rtakeWhile isSpace = text :=
    rdropWhile_append_rtakeWhile text
  rw [jsTrimEnd]
  conv_lhs => rw [← hsplit]
  rw [rdropWhile_append_of_forall hblanks, List.rdropWhile_eq_self_iff]
  intro hne
  rw [Ne, List.rtakeWhile_eq_nil_iff, not_forall] at h
  obtain ⟨_, hlast⟩ := h
  simp [not_isJsSpace_of_isAlpha (not_not.1 hlast)]

/-- The fragment a command `db.name…` begins is trimmed to a prefix of the command. -/
theorem jsTrim_fragment {blanks rest : Text} (hblanks : ∀ c ∈ blanks, isSpace c) :
    jsTrim ((blanks ++ ("db.".toList ++ rest)).takeWhile (· ≠ ';')) =
      jsTrimEnd ("db.".toList ++ rest.takeWhile (· ≠ ';')) := by
  have hsemi : ∀ c ∈ blanks, decide (c ≠ ';') = true := by
    intro c hc
    have hspace := hblanks c hc
    simp only [ne_eq, decide_eq_true_eq]
    rintro rfl
    exact absurd hspace (by decide)
  rw [List.takeWhile_append_of_pos hsemi, jsTrim, jsTrimStart,
    List.dropWhile_append_of_pos fun c hc ↦ isJsSpace_of_isSpace (hblanks c hc)]
  rfl

/-- In a fragment that is a call, the gate's method is the identifier in front of the first
parenthesis of the command. -/
theorem methodOf_fragment {rest : Text}
    (hcall : Gate.SafeMode.isDbCall (jsTrimEnd ("db.".toList ++ rest.takeWhile (· ≠ ';')))) :
    Gate.SafeMode.methodOf (jsTrimEnd ("db.".toList ++ rest.takeWhile (· ≠ ';'))) =
      (jsTrimEnd ("db.".toList ++ rest.takeWhile (· ≠ '('))).rtakeWhile Char.isAlpha := by
  have hparen : '(' ∈ jsTrimEnd ("db.".toList ++ rest.takeWhile (· ≠ ';')) := by
    rw [Gate.SafeMode.isDbCall, Bool.and_eq_true] at hcall
    exact List.mem_of_mem_drop (mem_of_callsAfterDot hcall.2)
  have hprefix : jsTrimEnd ("db.".toList ++ rest.takeWhile (· ≠ ';')) <+: "db.".toList ++ rest :=
    (List.rdropWhile_prefix _ _).trans
      ((List.prefix_append_right_inj _).2 (List.takeWhile_prefix _))
  obtain ⟨more, hmore⟩ := hprefix
  have hcut : (jsTrimEnd ("db.".toList ++ rest.takeWhile (· ≠ ';'))).takeWhile (· ≠ '(') =
      "db.".toList ++ rest.takeWhile (· ≠ '(') := by
    rw [← takeWhile_append_of_mem hparen more, hmore,
      List.takeWhile_append_of_pos (by decide)]
  rw [Gate.SafeMode.methodOf, hcut]

theorem isAlpha_of_isWide {c : Char} (h : isWide c) : c.isAlpha = false := by
  by_contra halpha
  have := isWide_of_isAlpha (by simpa using halpha)
  simp [h] at this

/-- The driver's method is read off the characters. -/
theorem driverMethod_utf8 (text : Text) :
    (skipWsBack (utf8 text)).rtakeWhile Char.isAlpha =
      (skipWsBack text).rtakeWhile Char.isAlpha := by
  rw [skipWsBack, rdropWhile_utf8 fun c ↦ isSpace_of_isWide,
    rtakeWhile_utf8 fun c ↦ isAlpha_of_isWide]
  exact utf8_of_ascii fun c hc ↦ isWide_of_isAlpha (List.mem_rtakeWhile_imp hc)

theorem splitOn_eq_takeWhile_cons (d : Char) (text : Text) :
    ∃ parts, text.splitOn d = text.takeWhile (· ≠ d) :: parts := by
  induction text with
  | nil => exact ⟨[], rfl⟩
  | cons c text ih =>
    obtain ⟨parts, hparts⟩ := ih
    rw [List.splitOn_cons_eq_if_modifyHead, hparts]
    by_cases hc : c = d <;> simp [hc]

theorem rdropWhile_append_of_ne_nil {p : Char → Bool} {before text : Text}
    (h : text.rdropWhile p ≠ []) :
    (before ++ text).rdropWhile p = before ++ text.rdropWhile p := by
  have hsplit := rdropWhile_append_rtakeWhile (p := p) text
  have hrest : ∀ c ∈ text.rtakeWhile p, p c := fun c hc ↦ List.mem_rtakeWhile_imp hc
  conv_lhs => rw [← hsplit, ← List.append_assoc]
  rw [rdropWhile_append_of_forall hrest, List.rdropWhile_eq_self_iff]
  intro hne
  rw [List.getLast_append_of_ne_nil hne h]
  exact List.rdropWhile_last_not p text h

/-- `db.` and C blanks change nothing about the identifier at the end of `w`. -/
theorem gateMethod_eq {w : Text} (h : (skipWsBack w).rtakeWhile Char.isAlpha ≠ []) :
    (jsTrimEnd ("db.".toList ++ w)).rtakeWhile Char.isAlpha =
      (skipWsBack w).rtakeWhile Char.isAlpha := by
  have hne : skipWsBack w ≠ [] := by
    intro hnil
    rw [hnil] at h
    exact h (List.rtakeWhile_nil _)
  have hback : skipWsBack ("db.".toList ++ w) = ['d', 'b'] ++ '.' :: skipWsBack w :=
    rdropWhile_append_of_ne_nil hne
  have hidentifier : (skipWsBack ("db.".toList ++ w)).rtakeWhile Char.isAlpha =
      (skipWsBack w).rtakeWhile Char.isAlpha := by
    rw [hback, rtakeWhile_isAlpha_append ['d', 'b'] '.' (by decide)]
  rw [jsTrimEnd_eq_skipWsBack (hidentifier ▸ h), hidentifier]

/-- In front of the parenthesis of `getCollection (` there is nothing but that name. -/
theorem skipWsBack_of_isGetCollection {y : Text} (h : isGetCollection (utf8 y)) :
    '(' ∈ y ∧ skipWsBack (y.takeWhile (· ≠ '(')) = "getCollection".toList := by
  rw [isGetCollection, Bool.and_eq_true, decide_eq_true_eq] at h
  obtain ⟨z, rfl⟩ : ∃ z, y = "getCollection".toList ++ z :=
    ⟨_, eq_append_of_isPrefixOf_utf8 (by decide) h.1⟩
  have hname : utf8 "getCollection".toList = "getCollection".toList :=
    utf8_of_ascii (by decide)
  have hdrop : (utf8 ("getCollection".toList ++ z)).drop 13 = utf8 z := by
    rw [utf8_append, hname]
    rfl
  rw [hdrop, skipWs, dropWhile_utf8 fun c ↦ isSpace_of_isWide,
    head?_utf8_eq_some_iff (by decide)] at h
  obtain ⟨rest, hrest⟩ := List.head?_eq_some_iff.1 h.2
  have hz : z = z.takeWhile isSpace ++ '(' :: rest := by
    rw [← hrest, List.takeWhile_append_dropWhile]
  have hblanks : ∀ c ∈ z.takeWhile isSpace, isSpace c := fun c hc ↦ List.mem_takeWhile_imp hc
  refine ⟨by rw [hz]; simp, ?_⟩
  have hcut : z.takeWhile (· ≠ '(') = z.takeWhile isSpace := by
    conv_lhs => rw [hz]
    rw [List.takeWhile_append_of_pos, List.takeWhile_cons_of_neg (by simp), List.append_nil]
    intro c hc
    have hspace := hblanks c hc
    simp only [ne_eq, decide_eq_true_eq]
    rintro rfl
    exact absurd hspace (by decide)
  rw [List.takeWhile_append_of_pos (by decide), hcut, skipWsBack,
    rdropWhile_append_of_forall hblanks]
  decide

theorem mem_of_mem_utf8 {d : Char} (hd : isWide d = false) {text : Text} (h : d ∈ utf8 text) :
    d ∈ text := by
  obtain ⟨c, hc, hmem⟩ := List.mem_flatMap.1 h
  by_contra hnot
  exact not_mem_utf8Bytes hd (fun heq ↦ hnot (heq ▸ hc)) hmem

/-- A text the driver parses starts with a fragment that is not blank; if the gate takes that for a
call, it reads the driver's method, or `getCollection`. -/
theorem methodOf_eq_of_parseCall {t : Text} {call : Call}
    (h : parseCall (cString (utf8 t)) = .ok call) :
    jsTrim (t.takeWhile (· ≠ ';')) ≠ [] ∧
      (Gate.SafeMode.isDbCall (jsTrim (t.takeWhile (· ≠ ';'))) →
        Gate.SafeMode.methodOf (jsTrim (t.takeWhile (· ≠ ';'))) = call.method ∨
          Gate.SafeMode.methodOf (jsTrim (t.takeWhile (· ≠ ';'))) = "getCollection".toList) := by
  obtain ⟨collStart, hdb, hmethod⟩ := parseCall_ok h
  rw [cString_utf8, skipWs, dropWhile_utf8 fun c ↦ isSpace_of_isWide] at hdb
  -- The characters behind `db.`, up to a NUL in `y` and all of them in `y ++ tail`.
  obtain ⟨y, hy⟩ : ∃ y, (cString t).dropWhile isSpace = "db.".toList ++ y := by
    have hprefix : "db.".toList.isPrefixOf (utf8 ((cString t).dropWhile isSpace)) :=
      List.isPrefixOf_iff_prefix.2 ⟨collStart, hdb.symm⟩
    exact ⟨_, eq_append_of_isPrefixOf_utf8 (by decide) hprefix⟩
  have hname : utf8 "db.".toList = "db.".toList := utf8_of_ascii (by decide)
  obtain rfl : collStart = utf8 y := by
    rw [hy, utf8_append, hname] at hdb
    exact (List.append_cancel_left hdb).symm
  let tail := t.dropWhile (· ≠ '\x00')
  have ht : t = (cString t).takeWhile isSpace ++ ("db.".toList ++ (y ++ tail)) := by
    have hspaces : (cString t).takeWhile isSpace ++ (cString t).dropWhile isSpace = cString t :=
      List.takeWhile_append_dropWhile
    have hnul : cString t ++ tail = t := List.takeWhile_append_dropWhile
    rw [hy] at hspaces
    conv_lhs => rw [← hnul, ← hspaces]
    simp only [List.append_assoc]
  have hfragment : jsTrim (t.takeWhile (· ≠ ';')) =
      jsTrimEnd ("db.".toList ++ (y ++ tail).takeWhile (· ≠ ';')) := by
    conv_lhs => rw [ht]
    exact jsTrim_fragment fun c hc ↦ List.mem_takeWhile_imp hc
  rw [hfragment]
  constructor
  · rw [jsTrimEnd, Ne, List.rdropWhile_eq_nil_iff]
    intro hblank
    exact absurd (hblank 'd' (by simp)) (by decide)
  intro hcall
  rw [methodOf_fragment hcall]
  rcases hmethod with hget | ⟨hparen, hne, hmethod⟩
  · obtain ⟨hparen, hbefore⟩ := skipWsBack_of_isGetCollection hget
    right
    rw [takeWhile_append_of_mem hparen, gateMethod_eq] <;> rw [hbefore]
    · decide
    · decide
  · left
    have hwide : ∀ c, isWide c → decide (c ≠ '(') = true := fun c hc ↦
      decide_eq_true (ne_of_isWide hc (by decide))
    rw [takeWhile_utf8 hwide, driverMethod_utf8] at hmethod
    rw [takeWhile_append_of_mem (mem_of_mem_utf8 (by decide) hparen), hmethod, gateMethod_eq]
    rwa [← hmethod]

/-! ## What the driver runs -/

theorem chainCall_op {explainOnly : Bool} {name arg : Text} {out out' : Query}
    (h : chainCall explainOnly name arg out = .ok out') : out'.op = out.op := by
  unfold chainCall setExplain at h
  split at h
  · split at h
    · cases h
      rfl
    · split at h <;> cases h
      rfl
  · split at h
    · cases h
    · split at h
      · cases h
        rfl
      · split at h
        · simp only at h
          split_ifs at h <;> cases h <;> rfl
        · cases h

theorem parseChain_op {explainOnly : Bool} {fuel : ℕ} {p : Text} {out out' : Query}
    (h : parseChain explainOnly fuel p out = .ok out') : out'.op = out.op := by
  induction fuel generalizing p out with
  | zero =>
    cases h
    rfl
  | succ fuel ih =>
    simp only [parseChain] at h
    split_ifs at h
    · cases h
      rfl
    · cases h
    · cases h
    · cases h
    · split at h
      · cases h
      · split at h
        · cases h
        next hcall => exact (ih h).trans (chainCall_op hcall)

theorem finishFind_op {call : Call} {isFindOne : Bool} {q : Query}
    (h : finishFind call isFindOne = .ok q) : q.op = .find := by
  unfold finishFind at h
  split at h
  · cases h
  split at h
  · cases h
  split at h
  · cases h
  simp only at h
  split_ifs at h
  · cases h
  · cases h
    rfl
  · exact parseChain_op h

theorem finishAggregate_op {call : Call} {q : Query} (h : finishAggregate call = .ok q) :
    q.op = .aggregate := by
  unfold finishAggregate at h
  split at h
  · cases h
  split at h
  · cases h
  split at h
  · cases h
  · exact parseChain_op h

/-- What the gate calls a read the driver rejects, or runs as a `find` or an `aggregate`. -/
theorem op_of_not_blocked {t : Text} {q : Query} (h : mongoQueryParse (cString (utf8 t)) = .ok q)
    (hread : ¬ Blocked (t.takeWhile (· ≠ ';'))) : q.op = .find ∨ q.op = .aggregate := by
  unfold mongoQueryParse at h
  split at h
  · cases h
  next call hcall =>
    obtain ⟨hne, hmethod⟩ := methodOf_eq_of_parseCall hcall
    have hgate : Gate.SafeMode.isDbCall (jsTrim (t.takeWhile (· ≠ ';'))) ∧
        (Gate.SafeMode.methodOf (jsTrim (t.takeWhile (· ≠ ';'))) = "find".toList ∨
          Gate.SafeMode.methodOf (jsTrim (t.takeWhile (· ≠ ';'))) = "aggregate".toList) := by
      simp only [Blocked] at hread
      tauto
    split at h
    · exact .inl (finishFind_op h)
    · split at h
      · exact .inl (finishFind_op h)
      · split at h
        · exact .inr (finishAggregate_op h)
        next hfind _ haggregate =>
          -- The gate read another method, or none at all.
          rcases hmethod hgate.1 with heq | heq
          · rw [heq] at hgate
            exact hgate.2.elim (fun h ↦ absurd h hfind) fun h ↦ absurd h haggregate
          · rw [heq] at hgate
            exact absurd hgate.2 (by decide)

theorem classifyMongo_eq_write_iff (t : Text) :
    Gate.SafeMode.classifyMongo t = .write ↔ ∃ raw ∈ t.splitOn ';', Blocked raw := by
  rw [Gate.SafeMode.classifyMongo, Gate.tally_eq_write_iff (by decide)]
  apply exists_congr
  intro raw
  apply and_congr_right
  intro _
  simp only [Gate.SafeMode.classifyCall, Blocked]
  split_ifs <;> simp_all

theorem classifyMongo_eq_empty_iff (t : Text) :
    Gate.SafeMode.classifyMongo t = .empty ↔ ∀ raw ∈ t.splitOn ';', jsTrim raw = [] := by
  rw [Gate.SafeMode.classifyMongo, Gate.tally_eq_empty_iff]
  simp only [true_and, Gate.SafeMode.classifyCall]
  apply forall_congr'
  intro raw
  apply imp_congr_right
  intro _
  split_ifs <;> simp_all

/-- A text that is a command has a first fragment that is not blank. -/
theorem jsTrim_ne_nil_of_parse {t : Text} {q : Query}
    (h : mongoQueryParse (cString (utf8 t)) = .ok q) : jsTrim (t.takeWhile (· ≠ ';')) ≠ [] := by
  unfold mongoQueryParse at h
  split at h
  · cases h
  next hcall => exact (methodOf_eq_of_parseCall hcall).1

theorem classifySql_mongodb {t : Text} (ht : t ≠ []) :
    Gate.SafeMode.classifySql t (some "mongodb".toList) = Gate.SafeMode.classifyMongo t := by
  rw [Gate.SafeMode.classifySql, if_neg ht, if_pos (by decide)]

end Squaero.Mongo
