import Squaero.Lib.Backtrack

/-!
# Qualified names

A name of SQL is one or more parts with dots between them, blanks allowed around the dots. A part is bare or quoted, and
a quoted part has its closing character doubled. Names are read character by character, so that of two readings of one
text the longer goes on where the shorter ends.
-/

namespace Squaero.Lib.QualifiedName

open Backtrack

/-- The characters of a bare part: letters, digits, signs that some engine takes and all that is not ASCII. -/
def isBare (c : Char) : Bool :=
  c.isAlphanum || c = '_' || c = '$' || c = '#' || c = '@' || (isWide c && !isJsSpace c)

/-- What closes a part that is opened so. -/
def closing (opening : Char) : Option Char :=
  if opening = '"' ∨ opening = '`' ∨ opening = '\'' then some opening else if opening = '[' then some ']' else none

inductive Reading
  /-- Before a part. -/
  | start (parts : List Text)
  | bare (parts : List Text) (part : Text)
  | quoted (parts : List Text) (opening : Char) (part : Text)
  /-- Behind what closes a part, unless it is doubled. -/
  | closed (parts : List Text) (opening : Char) (part : Text)
  /-- Behind a part and blanks. -/
  | after (parts : List Text)
  deriving DecidableEq, Repr

/-- Behind a part: a dot or blanks. -/
def leave (parts : List Text) (c : Char) : Option Reading :=
  if c = '.' then some (.start parts) else if isJsSpace c then some (.after parts) else none

def step : Reading → Char → Option Reading
  | .start parts, c =>
    if isJsSpace c then some (.start parts)
    else if isBare c then some (.bare parts [c])
    else if (closing c).isSome then some (.quoted parts c [])
    else none
  | .bare parts part, c => if isBare c then some (.bare parts (part ++ [c])) else leave (parts ++ [part]) c
  | .quoted parts opening part, c =>
    if closing opening = some c then some (.closed parts opening part) else some (.quoted parts opening (part ++ [c]))
  | .closed parts opening part, c =>
    if closing opening = some c then some (.quoted parts opening (part ++ [c])) else leave (parts ++ [part]) c
  | .after parts, c => leave parts c

def run (state : Reading) : Text → Option Reading
  | [] => some state
  | c :: rest => (step state c).bind (run · rest)

/-- The parts, where a name may end. -/
def finish : Reading → Option (List Text)
  | .start _ | .quoted .. => none
  | .bare parts part | .closed parts _ part => some (parts ++ [part])
  | .after parts => some parts

/-- The parts of a qualified name. -/
def read (text : Text) : Option (List Text) := (run (.start []) text).bind finish

theorem run_append (state : Reading) (a b : Text) : run state (a ++ b) = (run state a).bind (run · b) := by
  induction a generalizing state with
  | nil => rfl
  | cons c a ih =>
    rw [List.cons_append, run, run, Option.bind_assoc]
    exact Option.bind_congr fun s _ ↦ ih s

theorem run_singleton (state : Reading) (c : Char) : run state [c] = step state c := Option.bind_fun_some _

/-! ## Blanks -/

theorem isBare_of_isJsSpace {c : Char} (h : isJsSpace c = true) : isBare c = false := by
  have hword := isWordChar_of_isJsSpace h
  have hsigns : ∀ d ∈ ['$', '#', '@'], isJsSpace d = false := by decide
  have hne {d : Char} (hd : d ∈ ['$', '#', '@']) : c ≠ d := by
    rintro rfl
    rw [hsigns c hd] at h
    cases h
  have hdigit : c.isDigit = false := by
    by_contra hdigit
    rw [Bool.not_eq_false] at hdigit
    have hspace := isSpace_of_isDigit hdigit
    have hwide := isWide_of_isJsSpace h hspace
    rw [isWide_of_isDigit hdigit] at hwide
    cases hwide
  simp only [isWordChar, Bool.or_eq_false_iff, decide_eq_false_iff_not] at hword
  simp [isBare, Char.isAlphanum, hword, hdigit, h, hne]

theorem mem_of_closing {opening c : Char} (h : closing opening = some c) : c ∈ ['"', '`', '\'', ']'] := by
  unfold closing at h
  split_ifs at h with hquote hbracket
  · rw [← Option.some.inj h]
    simpa using hquote.imp_right (Or.imp_right Or.inl)
  · rw [← Option.some.inj h]
    simp

theorem closing_ne_of_isJsSpace {opening c : Char} (h : isJsSpace c = true) : closing opening ≠ some c := by
  have hquotes : ∀ d ∈ ['"', '`', '\'', ']'], isJsSpace d = false := by decide
  intro hclose
  rw [hquotes c (mem_of_closing hclose)] at h
  cases h

theorem leave_of_isJsSpace {parts : List Text} {c : Char} (h : isJsSpace c = true) :
    leave parts c = some (.after parts) := by
  have hdot : c ≠ '.' := by
    rintro rfl
    exact absurd h (by decide)
  rw [leave, if_neg hdot, if_pos h]

/-- Behind a name blanks lead behind it. -/
theorem step_of_isJsSpace {state : Reading} {parts : List Text} (hstate : finish state = some parts) {c : Char}
    (h : isJsSpace c = true) : step state c = some (.after parts) := by
  cases state with
  | start => cases hstate
  | quoted => cases hstate
  | bare earlier part =>
    cases hstate
    rw [step, isBare_of_isJsSpace h, if_neg Bool.false_ne_true, leave_of_isJsSpace h]
  | closed earlier opening part =>
    cases hstate
    rw [step, if_neg (closing_ne_of_isJsSpace h), leave_of_isJsSpace h]
  | after earlier =>
    cases hstate
    rw [step, leave_of_isJsSpace h]

/-- Blanks neither end a name nor begin one. -/
theorem finish_step_of_isJsSpace (state : Reading) {c : Char} (h : isJsSpace c = true) :
    (step state c).bind finish = finish state := by
  cases hfinish : finish state with
  | some parts => rw [step_of_isJsSpace hfinish h, Option.bind_some, finish]
  | none =>
    cases state with
    | start => rw [step, if_pos h, Option.bind_some, finish]
    | quoted => rw [step, if_neg (closing_ne_of_isJsSpace h), Option.bind_some, finish]
    | bare => cases hfinish
    | closed => cases hfinish
    | after => cases hfinish

theorem finish_run_blank (state : Reading) {blanks : Text} (h : Blank blanks) :
    (run state blanks).bind finish = finish state := by
  induction blanks generalizing state with
  | nil => rfl
  | cons c blanks ih =>
    obtain ⟨hc, hmore⟩ := List.forall_mem_cons.mp h
    rw [run, Option.bind_assoc]
    calc (step state c).bind (fun s ↦ (run s blanks).bind finish)
      _ = (step state c).bind finish := Option.bind_congr fun s _ ↦ ih s hmore
      _ = finish state := finish_step_of_isJsSpace state hc

theorem read_append_blank (text : Text) {blanks : Text} (h : Blank blanks) : read (text ++ blanks) = read text := by
  unfold read
  rw [run_append, Option.bind_assoc]
  exact Option.bind_congr fun s _ ↦ finish_run_blank s h

theorem run_blank {parts : List Text} {blanks : Text} (h : Blank blanks) :
    run (.start parts) blanks = some (.start parts) := by
  induction blanks with
  | nil => rfl
  | cons c blanks ih =>
    obtain ⟨hc, hmore⟩ := List.forall_mem_cons.mp h
    rw [run, step, if_pos hc, Option.bind_some, ih hmore]

theorem read_blank_append {blanks : Text} (h : Blank blanks) (text : Text) : read (blanks ++ text) = read text := by
  rw [read, run_append, run_blank h]
  rfl

theorem blank_takeWhile (text : Text) : Blank (text.takeWhile isJsSpace) := fun _ hc ↦ List.mem_takeWhile_imp hc

theorem read_jsTrim (text : Text) : read (jsTrim text) = read text := by
  have hstart : read (jsTrimStart text) = read text := by
    conv_rhs => rw [← List.takeWhile_append_dropWhile (p := isJsSpace) (l := text)]
    exact (read_blank_append (blank_takeWhile text) _).symm
  have hend (t : Text) : read (jsTrimEnd t) = read t := by
    conv_rhs => rw [← List.rdropWhile_append_rtakeWhile (p := isJsSpace) (l := t)]
    exact (read_append_blank _ fun _ hc ↦ List.mem_rtakeWhile_imp hc).symm
  rw [jsTrim, hend, hstart]

/-! ## Where names end -/

/-- Behind blanks something comes that the name cannot go on with. -/
def Stops (state : Reading) (text : Text) : Prop :=
  ∃ blanks c rest, text = blanks ++ c :: rest ∧ Blank blanks ∧ run state (blanks ++ [c]) = none

theorem stops_of_first {state : Reading} {parts : List Text} (hstate : finish state = some parts) {text : Text} {c : Char}
    (h : first text = some c) (hdot : c ≠ '.') (hfirst : text.head?.any isJsSpace = true ∨ step state c = none) :
    Stops state text := by
  obtain ⟨blanks, rest, rfl, hblank, hc⟩ := exists_of_first h
  refine ⟨blanks, c, rest, rfl, hblank, ?_⟩
  cases blanks with
  | nil =>
    obtain hblank | hnone := hfirst
    · exact absurd hblank (Bool.eq_false_iff.mp hc)
    · exact (run_singleton state c).trans hnone
  | cons b blanks =>
    obtain ⟨hb, hmore⟩ := List.forall_mem_cons.mp hblank
    have hafter : run (.after parts) blanks = some (.after parts) := by
      clear h hfirst hblank
      induction blanks with
      | nil => rfl
      | cons b' blanks ih =>
        obtain ⟨hb', hmore⟩ := List.forall_mem_cons.mp hmore
        have hstep : step (.after parts) b' = some (.after parts) := step_of_isJsSpace rfl hb'
        rw [run, hstep, Option.bind_some, ih hmore]
    have hleave : leave parts c = none := by
      rw [leave, if_neg hdot, if_neg (Bool.eq_false_iff.mp hc)]
    rw [List.cons_append, run, step_of_isJsSpace hstate hb, Option.bind_some, run_append, hafter, Option.bind_some,
      run_singleton, step, hleave]

/-- A character that no name has outside quotes. -/
theorem step_eq_none {state : Reading} {parts : List Text} (hstate : finish state = some parts) {c : Char}
    (hbare : isBare c = false) (hclose : ∀ opening, closing opening ≠ some c) (hc : isJsSpace c = false)
    (hdot : c ≠ '.') : step state c = none := by
  have hleave (parts : List Text) : leave parts c = none := by
    rw [leave, if_neg hdot, if_neg (Bool.eq_false_iff.mp hc)]
  cases state with
  | start => cases hstate
  | quoted => cases hstate
  | bare earlier part => rw [step, if_neg (Bool.eq_false_iff.mp hbare), hleave]
  | closed earlier opening part => rw [step, if_neg (hclose opening), hleave]
  | after earlier => rw [step, hleave]

/-- A name that ends in no bare character ends in a quote. -/
theorem closed_of_last {name : Text} {state : Reading} {parts : List Text} (hrun : run (.start []) name = some state)
    (hstate : finish state = some parts) (hbare : name.getLast?.any isBare = false)
    (hblank : name.getLast?.any isJsSpace = false) : ∃ earlier opening part, state = .closed earlier opening part := by
  obtain rfl | ⟨before, c, rfl⟩ := List.eq_nil_or_concat name
  · cases hrun
    cases hstate
  · rw [List.concat_eq_append, List.getLast?_concat] at hbare hblank
    have hnotbare : isBare c = false := hbare
    have hnotblank : isJsSpace c = false := hblank
    have hleave (earlier : List Text) {s : Reading} (h : leave earlier c = some s) : finish s = none := by
      unfold leave at h
      split_ifs at h with hdot hspace
      · cases h
        rfl
      · rw [hnotblank] at hspace
        cases hspace
    rw [List.concat_eq_append, run_append] at hrun
    obtain ⟨s, -, hstep⟩ := Option.bind_eq_some_iff.mp hrun
    rw [run_singleton] at hstep
    cases s with
    | start =>
      rw [step, if_neg (Bool.eq_false_iff.mp hnotblank), if_neg (Bool.eq_false_iff.mp hnotbare)] at hstep
      split_ifs at hstep
      cases hstep
      cases hstate
    | bare =>
      rw [step, if_neg (Bool.eq_false_iff.mp hnotbare)] at hstep
      rw [hleave _ hstep] at hstate
      cases hstate
    | quoted =>
      rw [step] at hstep
      split_ifs at hstep
      · exact ⟨_, _, _, (Option.some.inj hstep).symm⟩
      · cases hstep
        cases hstate
    | closed =>
      rw [step] at hstep
      split_ifs at hstep
      · cases hstep
        cases hstate
      · rw [hleave _ hstep] at hstate
        cases hstate
    | after =>
      rw [hleave _ hstep] at hstate
      cases hstate

theorem isBare_of_isAlpha {c : Char} (h : c.isAlpha = true) : isBare c = true := by
  simp [isBare, Char.isAlphanum, h]

/-- A word is a name. -/
theorem run_word {w : Text} (hne : w ≠ []) (h : ∀ c ∈ w, c.isAlpha = true) :
    run (.start []) w = some (.bare [] w) := by
  have hmore (w : Text) (h : ∀ c ∈ w, c.isAlpha = true) (part : Text) :
      run (.bare [] part) w = some (.bare [] (part ++ w)) := by
    induction w generalizing part with
    | nil => rw [List.append_nil, run]
    | cons c w ih =>
      obtain ⟨hc, hw⟩ := List.forall_mem_cons.mp h
      rw [run, step, if_pos (isBare_of_isAlpha hc), Option.bind_some, ih hw, List.append_assoc, List.singleton_append]
  obtain ⟨c, w, rfl⟩ := List.exists_cons_of_ne_nil hne
  obtain ⟨hc, hw⟩ := List.forall_mem_cons.mp h
  rw [run, step, if_neg (by rw [isJsSpace_of_isAlpha hc]; exact Bool.false_ne_true), if_pos (isBare_of_isAlpha hc),
    Option.bind_some, hmore w hw]
  rfl

/-- What a name begins with. -/
theorem head_of_read {c : Char} {rest : Text} (h : (read (c :: rest)).isSome = true) (hc : isJsSpace c = false) :
    isBare c = true ∨ (closing c).isSome = true := by
  by_contra hnot
  rw [not_or] at hnot
  have hnone : read (c :: rest) = none := by
    rw [read, run, step, if_neg (Bool.eq_false_iff.mp hc), if_neg hnot.1, if_neg hnot.2]
    rfl
  rw [hnone] at h
  cases h

/-- Of two names that begin a text, the longer has blanks more, when the text stops behind the shorter. -/
theorem eq_append_of_stops {a b u v : Text} {state : Reading} (ha : run (.start []) a = some state)
    (hstops : Stops state u) (hb : (read b).isSome) (h : a ++ u = b ++ v) (hle : a.length ≤ b.length) :
    ∃ blanks, Blank blanks ∧ b = a ++ blanks ∧ u = blanks ++ v := by
  obtain ⟨more, rfl⟩ := List.prefix_of_prefix_length_le (List.prefix_append a u) (h ▸ List.prefix_append b v) hle
  rw [List.append_assoc] at h
  have hu : u = more ++ v := List.append_cancel_left h
  refine ⟨more, ?_, rfl, hu⟩
  obtain ⟨blanks, c, rest, rfl, hblank, hnone⟩ := hstops
  obtain hshort | hlong := le_or_gt more.length blanks.length
  · obtain ⟨tail, rfl⟩ := List.prefix_of_prefix_length_le (hu ▸ List.prefix_append more v)
      (List.prefix_append blanks (c :: rest)) hshort
    exact fun d hd ↦ hblank d (List.mem_append_left tail hd)
  · have hprefix : blanks ++ [c] <+: more := by
      refine List.prefix_of_prefix_length_le ?_ (hu ▸ List.prefix_append more v) (by simpa [Nat.succ_le_iff] using hlong)
      exact ⟨rest, by simp⟩
    obtain ⟨tail, rfl⟩ := hprefix
    have hread : read (a ++ (blanks ++ [c] ++ tail)) = none := by
      rw [read, run_append, ha, Option.bind_some, run_append, hnone]
      rfl
    rw [hread] at hb
    cases hb

end Squaero.Lib.QualifiedName
