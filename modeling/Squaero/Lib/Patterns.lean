import Squaero.Lib.Text

/-!
# Patterns in texts

What `replace` does with a global regular expression, and whole words. A pattern gives the text behind
its match at the start of a text. A word of a text is a maximal run of the characters of a class.
-/

namespace Squaero.Lib

/-! ## Replacement -/

/-- The text behind the match at the start of a text, if there is one. -/
abbrev Pattern := Text → Option Text

/-- `skip` characters of the last match are left. -/
def replaceFrom (pattern : Pattern) (put : Text) : ℕ → Text → Text
  | _, [] => []
  | skip + 1, _ :: rest => replaceFrom pattern put skip rest
  | 0, c :: rest =>
    match pattern (c :: rest) with
    | some behind => put ++ replaceFrom pattern put (rest.length - behind.length) rest
    | none => c :: replaceFrom pattern put 0 rest

/-- `text.replace(pattern, put)` with the flag `g`; no match is empty. -/
def replaceAll (pattern : Pattern) (put text : Text) : Text := replaceFrom pattern put 0 text

section

variable {pattern : Pattern} {put : Text}

theorem replaceAll_cons {c : Char} {rest : Text} (h : pattern (c :: rest) = none) :
    replaceAll pattern put (c :: rest) = c :: replaceAll pattern put rest := by
  simp [replaceAll, replaceFrom, h]

theorem replaceFrom_append (matched rest : Text) :
    replaceFrom pattern put matched.length (matched ++ rest) = replaceAll pattern put rest := by
  induction matched with
  | nil => rfl
  | cons c matched ih => exact ih

theorem replaceAll_match {matched behind : Text} (hne : matched ≠ [])
    (h : pattern (matched ++ behind) = some behind) :
    replaceAll pattern put (matched ++ behind) = put ++ replaceAll pattern put behind := by
  obtain ⟨c, matched, rfl⟩ := List.exists_cons_of_ne_nil hne
  have hskip : (matched ++ behind).length - behind.length = matched.length := by simp
  rw [List.cons_append] at h ⊢
  unfold replaceAll
  rw [replaceFrom, h]
  simp only [hskip, replaceFrom_append]
  rfl

/-- A part of the text that no match starts in. -/
theorem replaceAll_append {part rest : Text}
    (h : ∀ before c after, part = before ++ c :: after → pattern (c :: (after ++ rest)) = none) :
    replaceAll pattern put (part ++ rest) = part ++ replaceAll pattern put rest := by
  induction part with
  | nil => rfl
  | cons c part ih =>
    have hfirst : pattern (c :: (part ++ rest)) = none := h [] c part rfl
    have hmore := ih fun before d after hpart ↦ h (c :: before) d after (by rw [hpart]; rfl)
    rw [List.cons_append, replaceAll_cons hfirst, hmore, List.cons_append]

end

/-- The text behind the first `mark`. -/
def behindFirst (mark : Text) : Pattern
  | [] => if mark = [] then some [] else none
  | c :: rest =>
    if mark.isPrefixOf (c :: rest) then some ((c :: rest).drop mark.length) else behindFirst mark rest

/-- The text in front of the first `mark` and the text behind it. -/
def cutFirst (mark : Text) : Text → Option (Text × Text)
  | [] => if mark = [] then some ([], []) else none
  | c :: rest =>
    if mark.isPrefixOf (c :: rest) then some ([], (c :: rest).drop mark.length)
    else (cutFirst mark rest).map fun cut ↦ (c :: cut.1, cut.2)

/-- `/\/\*[\s\S]*?\*\//` -/
def blockComment : Pattern
  | '/' :: '*' :: rest => behindFirst ['*', '/'] rest
  | _ => none

/-- `opening[^\n]*` -/
def lineComment (opening : Text) : Pattern := fun text ↦
  if opening.isPrefixOf text then some ((text.drop opening.length).dropWhile (· ≠ '\n')) else none

/-- `\s+` -/
def spaces : Pattern := fun text ↦
  if text.head?.any isJsSpace then some (text.dropWhile isJsSpace) else none

theorem blockComment_eq_none {text : Text} (h : ¬ ['/', '*'] <+: text) : blockComment text = none := by
  unfold blockComment
  split
  · exact absurd (List.prefix_append ['/', '*'] _) h
  · rfl

theorem lineComment_eq_none {opening text : Text} (h : ¬ opening <+: text) :
    lineComment opening text = none := by
  have hfalse : opening.isPrefixOf text ≠ true := by rwa [ne_eq, List.isPrefixOf_iff_prefix]
  exact if_neg hfalse

theorem lineComment_append {opening body rest : Text} (hbody : '\n' ∉ body)
    (hrest : rest = [] ∨ ∃ more, rest = '\n' :: more) :
    lineComment opening (opening ++ (body ++ rest)) = some rest := by
  have hdrop : (body ++ rest).dropWhile (· ≠ '\n') = rest := by
    rw [List.dropWhile_append_of_pos fun c hc ↦ decide_eq_true (ne_of_mem_of_not_mem hc hbody)]
    rcases hrest with rfl | ⟨more, rfl⟩
    · rfl
    · exact List.dropWhile_cons_of_neg (by simp)
  have hopening : opening.isPrefixOf (opening ++ (body ++ rest)) = true := by simp
  rw [lineComment, if_pos hopening, List.drop_left, hdrop]

theorem eq_append_of_lineComment {opening text behind : Text} (h : lineComment opening text = some behind) :
    ∃ body, text = opening ++ (body ++ behind) ∧ '\n' ∉ body ∧
      (behind = [] ∨ ∃ more, behind = '\n' :: more) := by
  unfold lineComment at h
  split_ifs at h with hopening
  obtain ⟨rest, rfl⟩ := List.isPrefixOf_iff_prefix.mp hopening
  rw [List.drop_left] at h
  obtain rfl := Option.some.inj h
  refine ⟨rest.takeWhile (· ≠ '\n'), ?_, ?_, ?_⟩
  · rw [List.takeWhile_append_dropWhile]
  · intro hmem
    simpa using List.mem_takeWhile_imp hmem
  · cases hdrop : rest.dropWhile (· ≠ '\n') with
    | nil => exact .inl rfl
    | cons c more =>
      have hhead := List.head?_dropWhile_not (· ≠ '\n') rest
      rw [hdrop] at hhead
      obtain rfl : c = '\n' := by simpa using hhead
      exact .inr ⟨more, rfl⟩

theorem eq_append_of_behindFirst {mark text behind : Text} (h : behindFirst mark text = some behind) :
    ∃ body, text = body ++ behind ∧ mark.length ≤ text.length := by
  induction text with
  | nil =>
    unfold behindFirst at h
    split_ifs at h with hmark
    exact ⟨[], by simpa using h.symm, by simp [hmark]⟩
  | cons c text ih =>
    rw [behindFirst] at h
    split_ifs at h with hclose
    · obtain rfl := Option.some.inj h
      exact ⟨_, (List.take_append_drop _ _).symm, (List.isPrefixOf_iff_prefix.mp hclose).length_le⟩
    · obtain ⟨body, rfl, hlength⟩ := ih h
      exact ⟨c :: body, rfl, by simp at hlength ⊢; omega⟩

theorem eq_append_of_cutFirst {mark text before after : Text} (h : cutFirst mark text = some (before, after)) :
    text = before ++ (mark ++ after) := by
  induction text generalizing before with
  | nil =>
    unfold cutFirst at h
    split_ifs at h with hmark
    cases h
    rw [hmark]
    rfl
  | cons c text ih =>
    rw [cutFirst] at h
    split_ifs at h with hopen
    · obtain ⟨rest, hrest⟩ := List.isPrefixOf_iff_prefix.mp hopen
      cases h
      rw [← hrest, List.drop_left]
      rfl
    · obtain ⟨⟨front, behind⟩, hcut, heq⟩ := Option.map_eq_some_iff.mp h
      cases heq
      rw [ih hcut]
      rfl

/-- More text behind it does not change what is found. -/
theorem behindFirst_append {mark text behind : Text} (h : behindFirst mark text = some behind) (more : Text)
    (hmark : mark ≠ []) : behindFirst mark (text ++ more) = some (behind ++ more) := by
  induction text with
  | nil => simp [behindFirst, hmark] at h
  | cons c text ih =>
    rw [behindFirst] at h
    rw [List.cons_append, behindFirst]
    split_ifs at h with hclose
    · obtain rfl := Option.some.inj h
      have hpre := List.isPrefixOf_iff_prefix.mp hclose
      have hlong : mark.isPrefixOf (c :: (text ++ more)) = true :=
        List.isPrefixOf_iff_prefix.mpr (hpre.trans (List.prefix_append _ _))
      rw [if_pos hlong, ← List.cons_append, List.drop_append_of_le_length hpre.length_le]
    · obtain ⟨-, -, hlength⟩ := eq_append_of_behindFirst h
      have hstill : ¬ mark.isPrefixOf (c :: (text ++ more)) = true := by
        intro hopen
        refine hclose (List.isPrefixOf_iff_prefix.mpr ?_)
        refine List.prefix_of_prefix_length_le (List.isPrefixOf_iff_prefix.mp hopen) ?_ (by simp; omega)
        exact List.prefix_append (c :: text) more
      rw [if_neg hstill, ih h]

/-! ## Words -/

/-- The words of `text`: its maximal runs of characters of the class. -/
def runs (isPart : Char → Bool) (text : Text) : List Text :=
  (text.splitOnP fun c ↦ !isPart c).filter (· ≠ [])

section

variable {isPart : Char → Bool}

@[simp]
theorem runs_nil : runs isPart [] = [] := rfl

theorem runs_append_cons (before after : Text) {c : Char} (hc : isPart c = false) :
    runs isPart (before ++ c :: after) = runs isPart before ++ runs isPart after := by
  rw [runs, List.splitOnP_append_cons before after (by simp [hc]), List.filter_append]
  rfl

theorem runs_cons (after : Text) {c : Char} (hc : isPart c = false) :
    runs isPart (c :: after) = runs isPart after :=
  runs_append_cons [] after hc

theorem runs_separators {separators : Text} (h : ∀ c ∈ separators, isPart c = false) (after : Text) :
    runs isPart (separators ++ after) = runs isPart after := by
  induction separators with
  | nil => rfl
  | cons c separators ih =>
    rw [List.forall_mem_cons] at h
    rw [List.cons_append, runs_cons _ h.1, ih h.2]

theorem runs_append_separators {separators : Text} (h : ∀ c ∈ separators, isPart c = false)
    (before : Text) : runs isPart (before ++ separators) = runs isPart before := by
  cases separators with
  | nil => rw [List.append_nil]
  | cons c separators =>
    rw [List.forall_mem_cons] at h
    have hrest := runs_separators h.2 []
    rw [List.append_nil] at hrest
    rw [runs_append_cons _ _ h.1, hrest, runs_nil, List.append_nil]

theorem runs_of_all {word : Text} (hne : word ≠ []) (h : ∀ c ∈ word, isPart c = true) :
    runs isPart word = [word] := by
  rw [runs, List.splitOnP_eq_singleton fun c hc ↦ by simp [h c hc]]
  simp [hne]

theorem runs_append_of_all {word : Text} (hne : word ≠ []) (h : ∀ c ∈ word, isPart c = true)
    {after : Text} (hafter : after.head?.any isPart = false) :
    runs isPart (word ++ after) = word :: runs isPart after := by
  cases after with
  | nil => rw [List.append_nil, runs_of_all hne h, runs_nil]
  | cons c after =>
    have hc : isPart c = false := by simpa using hafter
    rw [runs_append_cons _ _ hc, runs_of_all hne h, runs_cons _ hc]
    rfl

theorem any_head_dropWhile (isPart : Char → Bool) (text : Text) : (text.dropWhile isPart).head?.any isPart = false := by
  have hhead := List.head?_dropWhile_not isPart text
  cases h : (text.dropWhile isPart).head? with
  | none => rfl
  | some c => simpa [h] using hhead

/-- The word in front comes first. -/
theorem runs_eq (text : Text) : runs isPart text =
    (if text.takeWhile isPart = [] then [] else [text.takeWhile isPart]) ++
      runs isPart (text.dropWhile isPart) := by
  have hstop := any_head_dropWhile isPart text
  split_ifs with hnil
  · rw [List.nil_append]
    conv_lhs => rw [← List.takeWhile_append_dropWhile (p := isPart) (l := text), hnil, List.nil_append]
  · conv_lhs => rw [← List.takeWhile_append_dropWhile (p := isPart) (l := text)]
    exact runs_append_of_all hnil (fun c hc ↦ List.mem_takeWhile_imp hc) hstop

theorem mem_runs_of_between {word : Text} (hne : word ≠ []) (h : ∀ c ∈ word, isPart c = true)
    (before after : Text) (hbefore : before.getLast?.any isPart = false)
    (hafter : after.head?.any isPart = false) : word ∈ runs isPart (before ++ (word ++ after)) := by
  rcases List.eq_nil_or_concat before with rfl | ⟨before, c, rfl⟩
  · rw [List.nil_append, runs_append_of_all hne h hafter]
    exact .head _
  · have hc : isPart c = false := by simpa using hbefore
    rw [List.concat_eq_append, List.append_assoc, List.singleton_append, runs_append_cons _ _ hc,
      runs_append_of_all hne h hafter, List.mem_append]
    exact .inr (.head _)

/-- A word stands somewhere, between what cannot be part of it. -/
theorem exists_of_mem_runs {text word : Text} (h : word ∈ runs isPart text) :
    word ≠ [] ∧ (∀ c ∈ word, isPart c = true) ∧ ∃ before after, text = before ++ (word ++ after) ∧
      before.getLast?.any isPart = false ∧ after.head?.any isPart = false := by
  induction hlength : text.length using Nat.strong_induction_on generalizing text with
  | _ n ih =>
    have hsplit := List.takeWhile_append_dropWhile (p := isPart) (l := text)
    rw [runs_eq, List.mem_append] at h
    rcases h with hfirst | hmore
    · split_ifs at hfirst with hnil
      · exact absurd hfirst List.not_mem_nil
      · obtain rfl := List.mem_singleton.mp hfirst
        exact ⟨hnil, fun c hc ↦ List.mem_takeWhile_imp hc, [], _, hsplit.symm, rfl, any_head_dropWhile _ _⟩
    · cases hdrop : text.dropWhile isPart with
      | nil =>
        rw [hdrop] at hmore
        exact absurd hmore List.not_mem_nil
      | cons c rest =>
        have hc : isPart c = false := by
          have hhead := any_head_dropWhile isPart text
          rwa [hdrop] at hhead
        rw [hdrop, runs_cons _ hc] at hmore
        have hshort : rest.length < n := by
          have hlen := (List.dropWhile_sublist isPart (l := text)).length_le
          rw [hdrop, List.length_cons, hlength] at hlen
          exact hlen
        obtain ⟨hne, hall, before, after, hrest, hbefore, hafter⟩ := ih _ hshort hmore rfl
        refine ⟨hne, hall, text.takeWhile isPart ++ c :: before, after, ?_, ?_, hafter⟩
        · rw [List.append_assoc, List.cons_append, ← hrest, ← hdrop, hsplit]
        · cases before with
          | nil => simpa using hc
          | cons d before =>
            rw [List.getLast?_append_of_ne_nil _ (List.cons_ne_nil _ _), List.getLast?_cons_cons]
            exact hbefore

/-- A word stays one for a smaller class that it is made of. -/
theorem mem_runs_of_imp {isPart' : Char → Bool} (himp : ∀ c, isPart' c = true → isPart c = true)
    {text word : Text} (h : word ∈ runs isPart text) (hword : ∀ c ∈ word, isPart' c = true) :
    word ∈ runs isPart' text := by
  have hstop {c : Option Char} (hc : c.any isPart = false) : c.any isPart' = false := by
    cases c with
    | none => rfl
    | some c =>
      cases hpart : isPart' c with
      | false => exact hpart
      | true => exact absurd (himp c hpart) (by simpa using hc)
  obtain ⟨hne, -, before, after, rfl, hbefore, hafter⟩ := exists_of_mem_runs h
  exact mem_runs_of_between hne hword before after (hstop hbefore) (hstop hafter)

end

/-- `/\bphrase\b/` matches, `before` being the character in front of the text. -/
def occursAfter (isPart : Char → Bool) (phrase : Text) : Option Char → Text → Bool
  | _, [] => false
  | before, c :: rest =>
    (!before.any isPart && phrase.isPrefixOf (c :: rest) &&
      !((c :: rest).drop phrase.length).head?.any isPart) || occursAfter isPart phrase (some c) rest

theorem occursAfter_of_between {isPart : Char → Bool} {phrase : Text} (hne : phrase ≠ []) (first : Option Char)
    (before after : Text) (hbefore : (before.getLast?.or first).any isPart = false)
    (hafter : after.head?.any isPart = false) :
    occursAfter isPart phrase first (before ++ (phrase ++ after)) = true := by
  induction before generalizing first with
  | nil =>
    obtain ⟨c, more, rfl⟩ := List.exists_cons_of_ne_nil hne
    have hfirst : first.any isPart = false := hbefore
    have hprefix : (c :: more).isPrefixOf (c :: (more ++ after)) = true := by simp
    have hdrop : (c :: (more ++ after)).drop (c :: more).length = after := by simp
    rw [List.nil_append, List.cons_append, occursAfter, hprefix, hdrop, hfirst, hafter]
    rfl
  | cons c before ih =>
    have hlast : (before.getLast?.or (some c)).any isPart = false := by
      rwa [List.getLast?_cons, Option.some_or, ← Option.or_some] at hbefore
    rw [List.cons_append, occursAfter, ih (some c) hlast, Bool.or_true]

end Squaero.Lib
