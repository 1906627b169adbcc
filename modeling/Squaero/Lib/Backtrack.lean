import Squaero.Lib.Text

/-!
# Regular expressions that try again

A piece of a regular expression reads from the start of a text and hands the rest to what comes next. Where the next
piece fails, it tries its other ways in the order of the expression, so the first success is what the engine finds.
-/

namespace Squaero.Lib.Backtrack

abbrev Reader (γ : Type) := Text → Option γ

variable {γ : Type}

/-- `word`, whatever the case of its letters. -/
def word (w : Text) (next : Reader γ) : Reader γ := fun text ↦
  if w.isPrefixOf (text.map Char.toLower) then next (text.drop w.length) else none

/-- `\s+`, which takes as many blanks as it can. -/
def spaces (next : Reader γ) : Reader γ
  | [] => none
  | c :: rest => if isJsSpace c then (spaces next rest).or (next rest) else none

/-- `(?:group)?` -/
def optional (group : Reader γ → Reader γ) (next : Reader γ) : Reader γ := fun text ↦
  (group next text).or (next text)

/-- `[\s\S]+?` in front of what `stop` finds: the shortest text that is not empty. -/
def shortest (stop : Text → Bool) : Reader Text
  | [] => none
  | c :: rest => if stop rest then some [c] else (shortest stop rest).map (c :: ·)

/-- The first place at which something is found. -/
def search (reader : Reader γ) : Reader γ
  | [] => reader []
  | c :: rest => (reader (c :: rest)).or (search reader rest)

/-- Blanks and nothing else. -/
def Blank (text : Text) : Prop := ∀ c ∈ text, isJsSpace c = true

theorem blank_nil : Blank [] := List.forall_mem_nil _

/-- A word in some case. -/
def Spells (w text : Text) : Prop := text.map Char.toLower = w

theorem Spells.length_eq {w text : Text} (h : Spells w text) : text.length = w.length := by
  rw [← h, List.length_map]

theorem isAlpha_of_toLower {c : Char} (h : c.toLower.isAlpha = true) : c.isAlpha = true := by
  by_cases hupper : c.isUpper = true
  · rw [isAlpha_eq, hupper, Bool.true_or]
  · have hsame : c.toLower = c := dif_neg fun hrange ↦ hupper (decide_eq_true hrange)
    rwa [hsame] at h

/-- What is spelled has letters where the word has. -/
theorem Spells.isAlpha {w text : Text} (h : Spells w text) (hw : ∀ c ∈ w, c.isAlpha = true) {c : Char}
    (hc : c ∈ text) : c.isAlpha = true := by
  have hlower : c.toLower ∈ w := h ▸ List.mem_map_of_mem hc
  exact isAlpha_of_toLower (hw _ hlower)

theorem isJsSpace_of_isAlpha {c : Char} (h : c.isAlpha = true) : isJsSpace c = false := by
  cases hspace : isJsSpace c with
  | false => rfl
  | true =>
    have hword := isWordChar_of_isJsSpace hspace
    rw [isWordChar, h] at hword
    cases hword

/-- Where a run of a class ends is known from the text. -/
theorem run_append_inj {p : Char → Bool} {a b x y : Text} (ha : ∀ c ∈ a, p c = true) (hb : ∀ c ∈ b, p c = true)
    (hx : x.head?.any p = false) (hy : y.head?.any p = false) (h : a ++ x = b ++ y) : a = b ∧ x = y := by
  have hcut {a x : Text} (ha : ∀ c ∈ a, p c = true) (hx : x.head?.any p = false) : (a ++ x).takeWhile p = a := by
    rw [List.takeWhile_append_of_pos ha]
    cases x with
    | nil => exact List.append_nil a
    | cons c x =>
      have hc : ¬p c = true := Bool.eq_false_iff.mp hx
      rw [List.takeWhile_cons_of_neg hc, List.append_nil]
  have hsame : a = b := by rw [← hcut ha hx, h, hcut hb hy]
  exact ⟨hsame, List.append_cancel_left (hsame ▸ h)⟩

/-- The first character that is no blank. -/
def first (text : Text) : Option Char := (text.dropWhile isJsSpace).head?

theorem first_append {blanks : Text} (h : Blank blanks) (text : Text) : first (blanks ++ text) = first text := by
  rw [first, List.dropWhile_append_of_pos h, first]

theorem first_cons {c : Char} (h : isJsSpace c = false) (text : Text) : first (c :: text) = some c := by
  rw [first, List.dropWhile_cons_of_neg (Bool.eq_false_iff.mp h), List.head?_cons]

theorem exists_of_first {text : Text} {c : Char} (h : first text = some c) :
    ∃ blanks rest, text = blanks ++ c :: rest ∧ Blank blanks ∧ isJsSpace c = false := by
  obtain ⟨rest, hrest⟩ := List.head?_eq_some_iff.mp h
  refine ⟨text.takeWhile isJsSpace, rest, ?_, fun _ hc ↦ List.mem_takeWhile_imp hc, ?_⟩
  · rw [← hrest, List.takeWhile_append_dropWhile]
  · have hnot := List.head?_dropWhile_not isJsSpace text
    rw [hrest] at hnot
    exact hnot

section

variable {next : Reader γ}

theorem word_eq_some {w text : Text} {r : γ} (h : word w next text = some r) :
    ∃ spelled rest, text = spelled ++ rest ∧ Spells w spelled ∧ next rest = some r := by
  unfold word at h
  split_ifs at h with hprefix
  obtain ⟨more, hmore⟩ := List.isPrefixOf_iff_prefix.mp hprefix
  obtain ⟨spelled, rest, rfl, hspelled, -⟩ := List.map_eq_append_iff.mp hmore.symm
  refine ⟨spelled, rest, rfl, hspelled, ?_⟩
  rwa [← Spells.length_eq hspelled, List.drop_left] at h

theorem word_append {w spelled : Text} (h : Spells w spelled) (rest : Text) :
    word w next (spelled ++ rest) = next rest := by
  have hprefix : w.isPrefixOf ((spelled ++ rest).map Char.toLower) = true := by
    rw [List.map_append, h]
    exact List.isPrefixOf_iff_prefix.mpr (List.prefix_append w _)
  rw [word, if_pos hprefix, ← h.length_eq, List.drop_left]

theorem spaces_eq_some {text : Text} {r : γ} (h : spaces next text = some r) :
    ∃ blanks rest, text = blanks ++ rest ∧ blanks ≠ [] ∧ Blank blanks ∧ next rest = some r := by
  induction text with
  | nil => cases h
  | cons c text ih =>
    unfold spaces at h
    split_ifs at h with hc
    obtain hmore | ⟨-, hhere⟩ := Option.or_eq_some_iff.mp h
    · obtain ⟨blanks, rest, rfl, -, hblank, hnext⟩ := ih hmore
      exact ⟨c :: blanks, rest, rfl, List.cons_ne_nil _ _, List.forall_mem_cons.mpr ⟨hc, hblank⟩, hnext⟩
    · exact ⟨[c], text, rfl, List.cons_ne_nil _ _, List.forall_mem_singleton.mpr hc, hhere⟩

/-- All blanks are taken where that leads on. -/
theorem spaces_append {blanks rest : Text} {r : γ} (hne : blanks ≠ []) (hblank : Blank blanks)
    (hrest : rest.head?.any isJsSpace = false) (h : next rest = some r) : spaces next (blanks ++ rest) = some r := by
  have hstop : spaces next rest = none := by
    cases rest with
    | nil => rfl
    | cons c more => exact if_neg (Bool.eq_false_iff.mp hrest)
  induction blanks with
  | nil => exact absurd rfl hne
  | cons b blanks ih =>
    obtain ⟨hb, hmore⟩ := List.forall_mem_cons.mp hblank
    rw [List.cons_append, spaces, if_pos hb]
    cases blanks with
    | nil => rw [List.nil_append, hstop, Option.none_or, h]
    | cons b' blanks => rw [ih (List.cons_ne_nil b' blanks) hmore, Option.some_or]

theorem search_of_start {reader : Reader γ} {text : Text} {r : γ} (h : reader text = some r) :
    search reader text = some r := by
  cases text with
  | nil => exact h
  | cons c text => rw [search, h, Option.some_or]

end

variable {stop : Text → Bool}

theorem shortest_eq_some {text captured : Text} (h : shortest stop text = some captured) :
    ∃ rest, text = captured ++ rest ∧ captured ≠ [] ∧ stop rest = true ∧
      ∀ before after, captured = before ++ after → before ≠ [] → after ≠ [] → stop (after ++ rest) = false := by
  induction text generalizing captured with
  | nil => cases h
  | cons c text ih =>
    unfold shortest at h
    split_ifs at h with hstop
    · cases h
      refine ⟨text, rfl, List.cons_ne_nil _ _, hstop, fun before after hcut hbefore hafter ↦ ?_⟩
      obtain hb | ⟨more, hb, hm⟩ := List.cons_eq_append_iff.mp hcut
      · exact absurd hb.1 hbefore
      · exact absurd (List.append_eq_nil_iff.mp hm.symm).2 hafter
    · obtain ⟨inner, hinner, rfl⟩ := Option.map_eq_some_iff.mp h
      obtain ⟨rest, rfl, hne, hrest, hleast⟩ := ih hinner
      refine ⟨rest, rfl, List.cons_ne_nil _ _, hrest, fun before after hcut hbefore hafter ↦ ?_⟩
      obtain ⟨hb, -⟩ | ⟨more, rfl, hm⟩ := List.cons_eq_append_iff.mp hcut
      · exact absurd hb hbefore
      · cases more with
        | nil =>
          rw [List.nil_append] at hm
          rw [← hm]
          exact Bool.eq_false_iff.mpr hstop
        | cons d more => exact hleast (d :: more) after hm (List.cons_ne_nil _ _) hafter

theorem shortest_append {captured rest : Text} (hne : captured ≠ []) (hstop : stop rest = true)
    (hleast : ∀ before after, captured = before ++ after → before ≠ [] → after ≠ [] → stop (after ++ rest) = false) :
    shortest stop (captured ++ rest) = some captured := by
  induction captured with
  | nil => exact absurd rfl hne
  | cons c captured ih =>
    rw [List.cons_append, shortest]
    cases captured with
    | nil => exact if_pos hstop
    | cons d captured =>
      have hgo : stop (d :: captured ++ rest) = false :=
        hleast [c] (d :: captured) rfl (List.cons_ne_nil _ _) (List.cons_ne_nil _ _)
      rw [if_neg (by rw [hgo]; exact Bool.false_ne_true), ih (List.cons_ne_nil _ _)]
      · rfl
      · intro before after hcut hbefore hafter
        exact hleast (c :: before) after (by rw [hcut]; rfl) (List.cons_ne_nil _ _) hafter

end Squaero.Lib.Backtrack
