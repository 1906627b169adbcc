import Squaero.Lib.SqlLex

/-!
# Statements that do not read as meant

Where a text is spelled without the engine's escapes, some of it reads as something else. `ReadsIff` says
of a piece of a statement both that it reads as meant under a condition, and that otherwise nothing the
lexer makes of the rest begins with what was meant. Such pieces compose like the ones that always read.
-/

namespace Squaero.Lib.SqlLex

variable {d : Dialect} {q : Quoting}

/-! ## Texts that do not read as meant -/

theorem scan_prefix {mode : Mode} {out result : List Token} {text : Text}
    (h : scan d mode out text = some result) : out.reverse <+: result := by
  induction text generalizing mode out with
  | nil =>
    obtain ⟨token, _, rfl⟩ := Option.map_eq_some_iff.mp h
    rw [List.reverse_append]
    exact List.prefix_append _ _
  | cons c text ih =>
    rw [scan] at h
    split at h
    · cases h
    · next token mode _ =>
      have hlong := ih h
      rw [List.reverse_append] at hlong
      exact (List.prefix_append _ _).trans hlong

/-- The modes in a quoted text of which `read` has been read. -/
inductive Within (q : Quoting) (read : Text) : Mode → Prop
  | quoted : Within q read (.quoted q read)
  | escaped : Within q read (.escaped q read)
  | closing : Within q read (.closing q read)

/-- In a quoted text, the next token is that text, and goes on from what has been read. -/
theorem scan_within {mode : Mode} {read : Text} (hmode : Within q read mode) {out result : List Token}
    {text : Text} (h : scan d mode out text = some result) :
    ∃ t, read <+: t ∧ out.reverse ++ [q.token t] <+: result := by
  induction text generalizing mode read with
  | nil =>
    obtain ⟨token, hfinish, rfl⟩ := Option.map_eq_some_iff.mp h
    cases hmode with
    | closing =>
      obtain rfl : some (q.token read) = token := Option.some.inj hfinish
      exact ⟨read, List.prefix_rfl, by simp⟩
    | quoted => exact absurd hfinish nofun
    | escaped => exact absurd hfinish nofun
  | cons c text ih =>
    have hlonger (more : Text) (next : Mode) (hnext : Within q (read ++ more) next)
        (hscan : scan d next out text = some result) :
        ∃ t, read <+: t ∧ out.reverse ++ [q.token t] <+: result := by
      obtain ⟨t, hread, ht⟩ := ih hnext hscan
      exact ⟨t, (List.prefix_append read more).trans hread, ht⟩
    rw [scan] at h
    cases hmode with
    | quoted =>
      simp only [step] at h
      split_ifs at h
      · exact ih .closing h
      · exact ih .escaped h
      · exact hlonger [c] _ .quoted h
    | escaped => exact hlonger (unescape c) _ .quoted h
    | closing =>
      simp only [step] at h
      split_ifs at h
      · exact hlonger [c] _ .quoted h
      · cases hstart : start d c with
        | none => simp [hstart] at h
        | some mode =>
          have hprefix := scan_prefix (by simpa [hstart] using h)
          exact ⟨read, List.prefix_rfl, by simpa using hprefix⟩

/-- Whatever the lexer makes of the rest, the next token is not this one. -/
def Misses (d : Dialect) (mode : Mode) (out : List Token) (text : Text) (token : Token) : Prop :=
  ∀ result, scan d mode out text = some result → ¬ out.reverse ++ [token] <+: result

theorem misses_of_diverged (hstring : q.isString = true) {mode : Mode} {read value : Text}
    (hmode : Within q read mode) (hread : ¬ read <+: value) (out : List Token) (text : Text) :
    Misses d mode out text (.str value) := by
  intro result hscan hprefix
  obtain ⟨t, ht, hresult⟩ := scan_within hmode hscan
  have hsame := List.prefix_of_prefix_length_le hresult hprefix (by simp)
  have htoken := hsame.eq_of_length (by simp)
  have heq : t = value := by simpa [Quoting.token, hstring] using htoken
  exact hread (heq ▸ ht)

theorem misses_cons {mode next : Mode} {c : Char} {out : List Token} {rest : Text} {token : Token}
    (hstep : step d mode c = some (none, next)) (h : Misses d next out rest token) :
    Misses d mode out (c :: rest) token := by
  intro result hscan
  rw [scan_cons hstep] at hscan
  exact h result hscan

/-! ## Doubled quotes where a backslash escapes -/

/-- The body of a string whose quotes are doubled and whose backslashes are left as they are. -/
def doubled (text : Text) : Text := text.flatMap fun c ↦ if c = '\'' then [c, c] else [c]

/-- Every backslash is before a `%` or `_`, where it stands for itself. -/
def backslashSafe : Text → Bool
  | [] => true
  | ['\\'] => false
  | '\\' :: c :: rest => (c = '%' || c = '_') && backslashSafe rest
  | _ :: rest => backslashSafe rest

/-- A string in single quotes with backslash escapes. -/
def escaping : Quoting := ⟨'\'', true, true⟩

theorem backslashSafe_cons {c : Char} (hc : c ≠ '\\') (rest : Text) :
    backslashSafe (c :: rest) = backslashSafe rest := by
  cases rest <;> simp [backslashSafe, hc]

theorem spells_of_backslashSafe {text : Text} (h : backslashSafe text = true) :
    Spells escaping (doubled text) text := by
  induction text using backslashSafe.induct with
  | case1 => exact .nil
  | case2 => exact absurd h (by decide)
  | case3 c rest ih =>
    obtain ⟨hc, hrest⟩ := by simpa [backslashSafe] using h
    have hself : unescape c = ['\\', c] := by rcases hc with rfl | rfl <;> rfl
    have hquote : c ≠ '\'' := by rcases hc with rfl | rfl <;> decide
    have hescaped := Spells.escaped (q := escaping) (c := c) rfl (by decide) (ih hrest)
    rw [hself] at hescaped
    simpa [doubled, hquote] using hescaped
  | case4 c rest hlast hnext ih =>
    have hc : c ≠ '\\' := by
      rintro rfl
      cases rest with
      | nil => exact hlast rfl rfl
      | cons next rest => exact hnext next rest rfl rfl
    rw [backslashSafe_cons hc] at h
    by_cases hquote : c = '\''
    · subst hquote
      exact (ih h).doubled
    · simpa [doubled, hquote] using (ih h).plain hquote (by simp [hc])

/-- What a backslash and another character than `%` and `_` stand for. -/
theorem unescape_of_ne {c : Char} (hpercent : c ≠ '%') (hunderscore : c ≠ '_') (hc : c ≠ '\\') :
    ∃ x, x ≠ '\\' ∧ unescape c = [x] := by
  unfold unescape
  split_ifs with h0 hb hn hr ht hZ hwild
  iterate 6 exact ⟨_, by decide, rfl⟩
  · exact absurd hwild (by simp [hpercent, hunderscore])
  · exact ⟨c, hc, rfl⟩

theorem not_prefix_of_ne {x : Char} (hx : x ≠ '\\') (read more left : Text) :
    ¬ read ++ x :: more <+: read ++ '\\' :: left := by
  rw [List.prefix_append_right_inj, List.cons_prefix_cons]
  exact fun h ↦ hx h.1

theorem step_escaping {c : Char} (hquote : c ≠ '\'') (hc : c ≠ '\\') (read : Text) :
    step d (.quoted escaping read) c = some (none, .quoted escaping (read ++ [c])) := by
  simp [step, escaping, hquote, hc]

theorem step_quote (read : Text) :
    step d (.quoted escaping read) '\'' = some (none, .closing escaping read) := rfl

theorem step_backslash (read : Text) :
    step d (.quoted escaping read) '\\' = some (none, .escaped escaping read) := rfl

/-- A character that is not the backslash meant at its place. -/
theorem misses_plain {c : Char} (hc : c ≠ '\\') (read left text : Text) (out : List Token) :
    Misses d (.quoted escaping read) out (doubled [c] ++ text) (.str (read ++ '\\' :: left)) := by
  have hmiss := misses_of_diverged (d := d) (q := escaping) rfl .quoted
    (not_prefix_of_ne hc read [] left) out text
  by_cases hquote : c = '\''
  · subst hquote
    exact misses_cons (step_quote read) (misses_cons rfl hmiss)
  · have hself : doubled [c] = [c] := by simp [doubled, hquote]
    rw [hself]
    exact misses_cons (step_escaping hquote hc read) hmiss

/-- A backslash that the lexer takes as an escape of something else. -/
theorem misses_escape {c : Char} (hpercent : c ≠ '%') (hunderscore : c ≠ '_') (hc : c ≠ '\\')
    (read left text : Text) (out : List Token) :
    Misses d (.quoted escaping read) out ('\\' :: c :: text) (.str (read ++ '\\' :: left)) := by
  obtain ⟨x, hx, hunescape⟩ := unescape_of_ne hpercent hunderscore hc
  have hstep : step d (.escaped escaping read) c = some (none, .quoted escaping (read ++ [x])) := by
    rw [step, hunescape]
  exact misses_cons (step_backslash read) (misses_cons hstep
    (misses_of_diverged rfl .quoted (not_prefix_of_ne hx read [] left) out text))

theorem doubled_cons (c : Char) (rest : Text) : doubled (c :: rest) = doubled [c] ++ doubled rest := by
  simp [doubled]

theorem doubled_head (c : Char) (rest : Text) : ∃ more, doubled (c :: rest) = c :: more := by
  by_cases hc : c = '\''
  · exact ⟨c :: doubled rest, by simp [doubled, hc]⟩
  · exact ⟨doubled rest, by simp [doubled, hc]⟩

theorem doubled_backslash (rest : Text) : doubled ('\\' :: rest) = '\\' :: doubled rest := by
  simp [doubled]

theorem doubled_wild {c : Char} (h : c = '%' ∨ c = '_') (rest : Text) :
    doubled (c :: rest) = c :: doubled rest := by
  rcases h with rfl | rfl <;> simp [doubled]

theorem step_wild {c : Char} (h : c = '%' ∨ c = '_') (read : Text) :
    step d (.escaped escaping read) c = some (none, .quoted escaping (read ++ ['\\', c])) := by
  rcases h with rfl | rfl <;> rfl

theorem ne_backslash_of_cons {c : Char} {rest : Text} (hlast : c = '\\' → rest = [] → False)
    (hnext : ∀ next more, c = '\\' → rest = next :: more → False) : c ≠ '\\' := by
  rintro rfl
  cases rest with
  | nil => exact hlast rfl rfl
  | cons next more => exact hnext next more rfl rfl

/-- Behind a backslash that was swallowed, what has been read stays behind what was meant. -/
theorem misses_lagging (left : Text) (lag : ℕ) (read rest : Text) (out : List Token)
    (hrest : rest.head? ≠ some '\'') :
    Misses d (.quoted escaping read) out (doubled left ++ '\'' :: rest)
      (.str (read ++ '\\' :: (List.replicate lag '\\' ++ left))) := by
  induction left using backslashSafe.induct generalizing lag read with
  | case1 =>
    refine misses_cons (step_quote read) fun result hscan hprefix ↦ ?_
    rw [scan_closing hrest] at hscan
    have hread := scan_prefix hscan
    rw [List.reverse_cons] at hread
    have hsame := (List.prefix_of_prefix_length_le hread hprefix (by simp)).eq_of_length (by simp)
    simp [Quoting.token, escaping] at hsame
  | case2 =>
    exact misses_escape (by decide) (by decide) (by decide) read _ rest out
  | case3 c left ih =>
    by_cases hwild : c = '%' ∨ c = '_'
    · -- the second backslash meant is not the wildcard read in its place
      have hc : '\\' ≠ c := by rcases hwild with rfl | rfl <;> decide
      have hread : ¬ read ++ ['\\', c] <+:
          read ++ '\\' :: (List.replicate lag '\\' ++ '\\' :: c :: left) := by
        rw [List.prefix_append_right_inj, List.cons_prefix_cons]
        cases lag <;> simp [List.replicate_succ, hc.symm]
      rw [doubled_backslash, doubled_wild hwild]
      exact misses_cons (step_backslash read) (misses_cons (step_wild hwild read)
        (misses_of_diverged rfl .quoted hread out _))
    by_cases hc : c = '\\'
    · subst hc
      have hmeant : read ++ '\\' :: (List.replicate lag '\\' ++ '\\' :: '\\' :: left) =
          read ++ ['\\'] ++ '\\' :: (List.replicate (lag + 1) '\\' ++ left) := by
        have hshift : List.replicate lag '\\' ++ '\\' :: '\\' :: left =
            '\\' :: (List.replicate lag '\\' ++ '\\' :: left) := by
          rw [List.append_cons, ← List.replicate_succ', List.replicate_succ]
          rfl
        rw [List.replicate_succ', hshift]
        simp
      rw [hmeant, doubled_backslash, doubled_backslash]
      exact misses_cons (step_backslash read) (misses_cons rfl (ih (lag + 1) (read ++ ['\\'])))
    · obtain ⟨more, hmore⟩ := doubled_head c left
      rw [doubled_backslash, hmore]
      exact misses_escape (fun h ↦ hwild (.inl h)) (fun h ↦ hwild (.inr h)) hc read _ _ out
  | case4 c left hlast hnext ih =>
    rw [doubled_cons, List.append_assoc]
    exact misses_plain (ne_backslash_of_cons hlast hnext) read _ _ out

/-- A string with an unsafe backslash does not read as itself. -/
theorem misses_of_backslash {text : Text} (h : backslashSafe text = false) (read rest : Text)
    (out : List Token) (hrest : rest.head? ≠ some '\'') :
    Misses d (.quoted escaping read) out (doubled text ++ '\'' :: rest) (.str (read ++ text)) := by
  induction text using backslashSafe.induct generalizing read with
  | case1 => exact absurd h (by decide)
  | case2 => exact misses_escape (by decide) (by decide) (by decide) read _ rest out
  | case3 c text ih =>
    by_cases hwild : c = '%' ∨ c = '_'
    · have hrest' : backslashSafe text = false := by
        rcases hwild with rfl | rfl <;> simpa [backslashSafe] using h
      have hmeant : read ++ '\\' :: c :: text = read ++ ['\\', c] ++ text := by simp
      rw [hmeant, doubled_backslash, doubled_wild hwild]
      exact misses_cons (step_backslash read) (misses_cons (step_wild hwild read) (ih hrest' _))
    by_cases hc : c = '\\'
    · subst hc
      have hmeant : read ++ '\\' :: '\\' :: text =
          read ++ ['\\'] ++ '\\' :: (List.replicate 0 '\\' ++ text) := by simp
      rw [hmeant, doubled_backslash, doubled_backslash]
      exact misses_cons (step_backslash read)
        (misses_cons rfl (misses_lagging text 0 (read ++ ['\\']) rest out hrest))
    · obtain ⟨more, hmore⟩ := doubled_head c text
      rw [doubled_backslash, hmore]
      exact misses_escape (fun h ↦ hwild (.inl h)) (fun h ↦ hwild (.inr h)) hc read _ _ out
  | case4 c text hlast hnext ih =>
    have hc := ne_backslash_of_cons hlast hnext
    rw [backslashSafe_cons hc] at h
    have hmeant : read ++ c :: text = read ++ [c] ++ text := by simp
    rw [hmeant]
    by_cases hquote : c = '\''
    · subst hquote
      exact misses_cons (step_quote read) (misses_cons rfl (ih h (read ++ ['\''])))
    · have hself : doubled (c :: text) = c :: doubled text := by simp [doubled, hquote]
      rw [hself]
      exact misses_cons (step_escaping hquote hc read) (ih h (read ++ [c]))

/-! ## Words -/

theorem isWord_append {text : Text} {c : Char} (h : isWord text = true)
    (hc : isWordChar c = true ∨ c.isDigit = true) : isWord (text ++ [c]) = true := by
  cases text with
  | nil => exact absurd h (by decide)
  | cons first text =>
    rw [isWord, Bool.and_eq_true] at h
    simp [isWord, h.1, isWordPart, hc, List.all_append, h.2]

theorem start_words {c : Char} {t : Text} (h : start d c = some (.word t)) : isWord t = true := by
  unfold start at h
  cases hd : d c with
  | some q => simp [hd] at h
  | none =>
    simp only [hd, Option.elim_none, plainStart] at h
    split_ifs at h with _ hword <;> simp only [Option.some.injEq, reduceCtorEq, Mode.word.injEq] at h
    obtain rfl := h
    simp [isWord, hword]

theorem token_ne_word (q : Quoting) (text t : Text) : q.token text ≠ .word t := by
  unfold Quoting.token
  split_ifs <;> simp

/-- A mode that is in a word, if at all. -/
def InWord (mode : Mode) : Prop := ∀ t, mode = .word t → isWord t = true

/-- The token that a mode has not completed yet is a word if it is read as one. -/
theorem step_words {mode next : Mode} (hmode : InWord mode) {c : Char} {token : Option Token}
    (h : step d mode c = some (token, next)) :
    (∀ t, token = some (.word t) → isWord t = true) ∧ InWord next := by
  have hstart {pending : Option Token} (hpending : ∀ t, pending = some (.word t) → isWord t = true)
      (h : ((start d c).map fun mode ↦ (pending, mode)) = some (token, next)) :
      (∀ t, token = some (.word t) → isWord t = true) ∧ InWord next := by
    obtain ⟨mode, hmode, heq⟩ := Option.map_eq_some_iff.mp h
    obtain ⟨rfl, rfl⟩ := Prod.mk.inj heq
    exact ⟨hpending, fun t ht ↦ start_words (ht ▸ hmode)⟩
  cases mode with
  | between => exact hstart (by simp) h
  | word text =>
    simp only [step] at h
    split_ifs at h with hc
    · obtain ⟨rfl, rfl⟩ := Prod.mk.inj (Option.some.inj h)
      refine ⟨by simp, fun t ht ↦ ?_⟩
      obtain rfl := Mode.word.inj ht
      exact isWord_append (hmode text rfl) hc
    · refine hstart (fun t ht ↦ ?_) h
      obtain rfl := Token.word.inj (Option.some.inj ht)
      exact hmode text rfl
  | num text =>
    simp only [step] at h
    split_ifs at h
    · obtain ⟨rfl, rfl⟩ := Prod.mk.inj (Option.some.inj h)
      exact ⟨by simp, by simp [InWord]⟩
    · exact hstart (by simp) h
  | op text =>
    simp only [step] at h
    split_ifs at h
    · obtain ⟨rfl, rfl⟩ := Prod.mk.inj (Option.some.inj h)
      exact ⟨by simp, by simp [InWord]⟩
    · exact hstart (by simp) h
  | dot =>
    simp only [step] at h
    split_ifs at h
    · obtain ⟨rfl, rfl⟩ := Prod.mk.inj (Option.some.inj h)
      exact ⟨by simp, by simp [InWord]⟩
    · exact hstart (by simp) h
  | punct p => exact hstart (by simp) h
  | quoted q text =>
    simp only [step] at h
    split_ifs at h <;>
    · obtain ⟨rfl, rfl⟩ := Prod.mk.inj (Option.some.inj h)
      exact ⟨by simp, by simp [InWord]⟩
  | escaped q text =>
    obtain ⟨rfl, rfl⟩ := Prod.mk.inj (Option.some.inj h)
    exact ⟨by simp, by simp [InWord]⟩
  | closing q text =>
    simp only [step] at h
    split_ifs at h
    · obtain ⟨rfl, rfl⟩ := Prod.mk.inj (Option.some.inj h)
      exact ⟨by simp, by simp [InWord]⟩
    · exact hstart (fun t ht ↦ absurd (Option.some.inj ht) (token_ne_word q text t)) h

theorem finish_words {mode : Mode} (hmode : InWord mode) {token : Option Token}
    (h : finish mode = some token) (t : Text) (ht : token = some (.word t)) : isWord t = true := by
  subst ht
  cases mode with
  | word text =>
    obtain rfl : text = t := by simpa [finish] using h
    exact hmode text rfl
  | closing q text =>
    exact absurd (Option.some.inj (Option.some.inj h)) (token_ne_word q text t)
  | _ => simp [finish] at h

/-- Every word that the lexer finds is one. -/
theorem scan_words {mode : Mode} (hmode : InWord mode) {out result : List Token} {text : Text}
    (h : scan d mode out text = some result) :
    ∃ found, result = out.reverse ++ found ∧ ∀ t, .word t ∈ found → isWord t = true := by
  induction text generalizing mode out with
  | nil =>
    obtain ⟨token, hfinish, rfl⟩ := Option.map_eq_some_iff.mp h
    refine ⟨token.toList, ?_, fun t ht ↦ ?_⟩
    · cases token <;> simp
    · exact finish_words hmode hfinish t (by simpa using ht)
  | cons c text ih =>
    rw [scan] at h
    split at h
    · cases h
    · next token next hstep =>
      obtain ⟨htoken, hnext⟩ := step_words hmode hstep
      obtain ⟨found, rfl, hfound⟩ := ih hnext h
      refine ⟨token.toList ++ found, ?_, fun t ht ↦ ?_⟩
      · cases token <;> simp
      · exact (List.mem_append.mp ht).elim (fun hself ↦ htoken t (by simpa using hself)) (hfound t)

/-! ## Pieces that read as meant under a condition -/

/-- `text` reads as `tokens` if `safe`, and otherwise does not begin so. -/
structure ReadsIff (d : Dialect) (text : Text) (tokens : List Token) (safe : Prop) : Prop where
  reads : safe → Reads d text tokens
  misses : ¬ safe → ∀ out rest, Ends rest → ∀ result,
    scan d .between out (text ++ rest) = some result → ¬ out.reverse ++ tokens <+: result

variable {text more : Text} {tokens others : List Token} {safe safe' : Prop}

theorem Reads.readsIff (h : Reads d text tokens) : ReadsIff d text tokens True :=
  ⟨fun _ ↦ h, fun hsafe ↦ absurd trivial hsafe⟩

theorem ReadsIff.congr (h : ReadsIff d text tokens safe) (hsafe : safe ↔ safe') :
    ReadsIff d text tokens safe' :=
  ⟨fun hs ↦ h.reads (hsafe.mpr hs), fun hs ↦ h.misses (mt hsafe.mp hs)⟩

theorem Cuts.append_readsIff (h : Cuts d text tokens) (hmore : ReadsIff d more others safe) :
    ReadsIff d (text ++ more) (tokens ++ others) safe where
  reads hsafe := h.append_reads (hmore.reads hsafe)
  misses hsafe out rest hrest result hscan hprefix := by
    rw [List.append_assoc, h] at hscan
    refine hmore.misses hsafe _ rest hrest result hscan ?_
    simpa using hprefix

theorem ReadsIff.append (h : ReadsIff d text tokens safe) (hmore : ReadsIff d more others safe')
    (hopens : Opens more) : ReadsIff d (text ++ more) (tokens ++ others) (safe ∧ safe') where
  reads hsafe := (h.reads hsafe.1).append (hmore.reads hsafe.2) hopens
  misses hsafe out rest hrest result hscan hprefix := by
    rw [List.append_assoc] at hscan
    by_cases hfirst : safe
    · have hsecond : ¬ safe' := fun hs ↦ hsafe ⟨hfirst, hs⟩
      rw [h.reads hfirst _ _ (hopens.ends rest)] at hscan
      refine hmore.misses hsecond _ rest hrest result hscan ?_
      simpa using hprefix
    · refine h.misses hfirst out _ (hopens.ends rest) result hscan ?_
      rw [← List.append_assoc] at hprefix
      exact (List.prefix_append _ _).trans hprefix

theorem ReadsIff.lex_iff (h : ReadsIff d text tokens safe) : lex d text = some tokens ↔ safe := by
  refine ⟨fun hlex ↦ ?_, fun hsafe ↦ (h.reads hsafe).lex⟩
  by_contra hsafe
  have hmiss := h.misses hsafe [] [] nofun tokens
  rw [List.append_nil] at hmiss
  exact hmiss hlex List.prefix_rfl

theorem readsIff_intercalate {ι : Type*} {sep : Text} {between : List Token} (hsep : Cuts d sep between)
    (hopens : Opens sep) (piece : ι → Text) (read : ι → List Token) (ok : ι → Prop) (first : ι)
    (items : List ι) (hpieces : ∀ i ∈ first :: items, ReadsIff d (piece i) (read i) (ok i)) :
    ReadsIff d (sep.intercalate ((first :: items).map piece))
      (between.intercalate ((first :: items).map read)) (∀ i ∈ first :: items, ok i) := by
  induction items generalizing first with
  | nil =>
    have hone := hpieces first (.head _)
    simpa [List.intercalate_singleton] using hone
  | cons next items ih =>
    have htail := ih next fun i hi ↦ hpieces i (.tail _ hi)
    have hall := (hpieces first (.head _)).append (hsep.append_readsIff htail) (hopens.append _)
    rw [List.map_cons, List.map_cons, List.map_cons, List.map_cons, List.intercalate_cons_cons,
      List.intercalate_cons_cons, List.append_assoc, List.append_assoc]
    exact hall.congr (List.forall_mem_cons).symm

/-- A string whose quotes are doubled, where a backslash escapes. -/
theorem readsIff_doubled (hopen : d '\'' = some escaping) (text : Text) :
    ReadsIff d ('\'' :: (doubled text ++ ['\''])) [.str text] (backslashSafe text = true) where
  reads hsafe := reads_quoted (q := escaping) hopen (by decide) (spells_of_backslashSafe hsafe)
  misses hsafe out rest hrest result hscan := by
    have hstart : step d .between '\'' = some (none, .quoted escaping []) := by
      simp [step, start, hopen]
    have hunsafe : backslashSafe text = false := by simpa using hsafe
    have hquote : rest.head? ≠ some '\'' := hrest.ne_quote (by decide)
    rw [List.cons_append, List.append_assoc, List.singleton_append] at hscan
    exact misses_cons hstart (misses_of_backslash hunsafe [] rest out hquote) result hscan

/-- A name without quotes. -/
theorem readsIff_word (hd : Usual d) (text : Text) :
    ReadsIff d text [.word text] (isWord text = true) where
  reads hword := reads_word hd hword
  misses hword out rest _ result hscan hbegins := by
    obtain ⟨found, rfl, hfound⟩ := scan_words (by simp [InWord]) hscan
    rw [List.prefix_append_right_inj] at hbegins
    exact hword (hfound text (hbegins.subset (.head _)))

end Squaero.Lib.SqlLex
